import Mathlib.Data.Nat.Find
import SchemaRefs.Proofs.FollowedChains
import SchemaRefs.Proofs.NamedSources

/-!
# Names in the sources of a query

A name that the enclosing queries do not bind may be an element of the sources of the query. The
search goes through the table aliases in the order of the table, asks for the environment of each,
and stops at the second one that provides the name. If all environments are found (`Surveyed`), what
it comes to is determined by the aliases that provide the name (`exec_searchSources`), in every
cache and with whatever answers to its questions.

* `Exact`: exactly one alias has to provide the name;
* `source_lookup_exact`: this is so for the lookup and for the inspection of the reference, and for
  every order of the table in which the environments are found. Where the chains of types are short,
  in sessions that read paths as those of nodes, these are all orders: none of the environments
  needs the reference that is being looked up, because its resolution needs all of them
  (`surveyed_perm`);
* `reordered_sources_report_cycle`: where a chain is too long, the order decides whether the
  environments are found.
-/

namespace SchemaRefs

namespace Topology

/-- The topology with other table aliases for the query with an index. -/
def withAliases (topology : Topology) (index : Nat) (aliases : List (String × AliasBinding)) :
    Topology :=
  { topology with queries := topology.queries.modify index fun scope => { scope with aliases } }

theorem scope?_withAliases {topology : Topology} {index : Nat} {scope : QueryScope}
    (hs : topology.scope? index = some scope) (aliases : List (String × AliasBinding)) :
    (topology.withAliases index aliases).scope? index = some { scope with aliases } := by
  unfold scope? at hs ⊢
  simp [withAliases, hs]

end Topology

namespace Model

open Inquiry CacheM

variable {m : Model} {s t u : Cache} {k : Lookups} {path : Path} {topology : Topology} {site : Site}
  {scope : QueryScope} {env : String → Option NodeId} {name : String} {rest : List String}
  {aliases : List (String × AliasBinding)}

/-! ## The search -/

variable (m) in
/-- The aliases, asked one after the other, have the given environments. -/
def Surveyed (k : Lookups) (topology : Topology) (env : String → Option NodeId) :
    List (String × AliasBinding) → Cache → Prop
  | [], _ => True
  | (tableAlias, binding) :: rest, s =>
    ∃ t, exec ((m.aliasEnv topology binding).run k) s = (.ok (env tableAlias), t) ∧
      Surveyed k topology env rest t

variable (m) in
/-- The element of a name in the environment of an alias. -/
def elementOf (env : String → Option NodeId) (name tableAlias : String) : Option NodeId :=
  (env tableAlias).bind fun env => m.doc.memberIn? env name

variable (m) in
/-- The elements of a name that the aliases provide. -/
def providers (env : String → Option NodeId) (name : String)
    (aliases : List (String × AliasBinding)) :
    List (NodeId × String) :=
  aliases.filterMap fun entry => (m.elementOf env name entry.1).map fun element =>
    (element, entry.1)

/-- What the search comes to: at most one alias may provide the name. -/
def soleProvider (name : String) (number : Nat) :
    List (NodeId × String) → Except ResolveError (Option (NodeId × String))
  | [] => .ok none
  | [provider] => .ok (some provider)
  | first :: second :: _ => .error (.model (.ambiguous name first.2 second.2 number))

/-- What the lookup comes to: exactly one alias has to provide the name. -/
def sourceVerdict (name : String) (number : Nat) : List (NodeId × String) → Except ResolveError Head
  | [] => .error (.model (.notFound name ("the sources of query " ++ toString number)))
  | [provider] => .ok (.bound ⟨provider.1, none⟩ .source (some (.source provider.2 number)))
  | first :: second :: _ => .error (.model (.ambiguous name first.2 second.2 number))

theorem exec_searchSources (name : String) (number : Nat)
    (hsurvey : m.Surveyed k topology env aliases s) (found : Option (NodeId × String)) :
    (exec ((m.searchSources topology name number aliases found).run k) s).1 =
      soleProvider name number (found.toList ++ m.providers env name aliases) := by
  induction aliases generalizing found s with
  | nil => cases found <;> rfl
  | cons entry rest ih =>
    obtain ⟨tableAlias, binding⟩ := entry
    obtain ⟨t, hex, hrest⟩ := hsurvey
    unfold searchSources
    rw [exec_run_bind_ok hex]
    cases hfound : (env tableAlias).bind fun env => m.doc.memberIn? env name with
    | none =>
      have helement : m.elementOf env name tableAlias = none := hfound
      rw [providers, List.filterMap_cons_none (by rw [helement]; rfl)]
      exact ih hrest found
    | some element =>
      have helement : m.elementOf env name tableAlias = some element := hfound
      rw [providers, List.filterMap_cons_some (by rw [helement]; rfl)]
      cases found with
      | none => exact ih hrest (some (element, tableAlias))
      | some first => rfl

theorem exec_sourceHead (name : String) (hscope : siteScope? site topology = some scope)
    (hsurvey : m.Surveyed k topology env scope.aliases s) :
    (exec ((m.sourceHead site topology name).run k) s).1 =
      sourceVerdict name scope.number (m.providers env name scope.aliases) := by
  have hsearch := exec_searchSources name scope.number hsurvey none
  rw [Option.toList_none, List.nil_append] at hsearch
  unfold sourceHead
  rw [hscope]
  dsimp only
  rcases hex : exec ((m.searchSources topology name scope.number scope.aliases none).run k)
    s with ⟨e | found, t⟩
  all_goals rw [hex] at hsearch
  · rw [exec_run_bind_error hex]
    rcases hp : m.providers env name scope.aliases with _ | ⟨first, _ | ⟨second, others⟩⟩
    all_goals rw [hp] at hsearch
    all_goals cases hsearch
    rfl
  · rw [exec_run_bind_ok hex]
    rcases hp : m.providers env name scope.aliases with _ | ⟨first, _ | ⟨second, others⟩⟩
    all_goals rw [hp] at hsearch
    all_goals cases hsearch
    all_goals rfl

/-! ## Exactly one alias -/

variable (m) in
/-- An alias of the query has an element of the name in its environment. -/
def Provides (scope : QueryScope) (env : String → Option NodeId) (name tableAlias : String)
    (element : NodeId) : Prop :=
  tableAlias ∈ Table.keys scope.aliases ∧ m.elementOf env name tableAlias = some element

variable (m) in
/-- A name is found in the sources of a query if exactly one alias provides it. It is ambiguous if
several do, and unknown if none does. -/
structure Exact (scope : QueryScope) (env : String → Option NodeId) (name : String)
    (outcome : Except ResolveError Head) : Prop where
  found : ∀ head, outcome = .ok head ↔
    ∃ tableAlias element, m.Provides scope env name tableAlias element ∧
    (∀ other element', m.Provides scope env name other element' → other = tableAlias) ∧
    head = .bound ⟨element, none⟩ .source (some (.source tableAlias scope.number))
  ambiguous : FailsWith .ambiguousName outcome ↔
    ∃ tableAlias other element element', tableAlias ≠ other ∧
    m.Provides scope env name tableAlias element ∧ m.Provides scope env name other element'
  unknown : FailsWith .unknownName outcome ↔
    ∀ tableAlias element, ¬ m.Provides scope env name tableAlias element

/-- The verdict on a list of providers that names every alias once. -/
theorem exact_sourceVerdict {providers : List (NodeId × String)}
    (hdistinct : (providers.map Prod.snd).Nodup)
    (hmem : ∀ tableAlias element, (element, tableAlias) ∈ providers ↔
      m.Provides scope env name tableAlias element) :
    m.Exact scope env name (sourceVerdict name scope.number providers) := by
  rcases providers with _ | ⟨⟨element, tableAlias⟩, _ | ⟨⟨element', other⟩, rest⟩⟩
  · have hnone : ∀ tableAlias element, ¬ m.Provides scope env name tableAlias element :=
      fun a e hp => List.not_mem_nil ((hmem a e).mpr hp)
    rw [sourceVerdict]
    refine ⟨fun head => ⟨fun h => (by cases h), ?_⟩,
      failsWith_error.trans ⟨fun h => (by cases h), ?_⟩,
      failsWith_error.trans ⟨fun _ => hnone, fun _ => rfl⟩⟩
    · rintro ⟨a, e, hp, _⟩
      exact absurd hp (hnone a e)
    · rintro ⟨a, _, e, _, _, hp, _⟩
      exact absurd hp (hnone a e)
  · have hself := (hmem tableAlias element).mp List.mem_cons_self
    have honly : ∀ a e, m.Provides scope env name a e → a = tableAlias ∧ e = element := by
      intro a e hp
      cases List.mem_singleton.mp ((hmem a e).mpr hp)
      exact ⟨rfl, rfl⟩
    rw [sourceVerdict]
    refine ⟨fun head => ⟨fun h => ?_, ?_⟩, ⟨fun h => absurd h not_failsWith_ok, ?_⟩,
      fun h => absurd h not_failsWith_ok, fun h => absurd hself (h tableAlias element)⟩
    · cases h
      exact ⟨tableAlias, element, hself, fun a e hp => (honly a e hp).1, rfl⟩
    · rintro ⟨a, e, hp, _, rfl⟩
      obtain ⟨rfl, rfl⟩ := honly a e hp
      rfl
    · rintro ⟨a, b, e, e', hne, ha, hb⟩
      exact absurd ((honly a e ha).1.trans (honly b e' hb).1.symm) hne
  · have hfirst := (hmem tableAlias element).mp List.mem_cons_self
    have hsecond := (hmem other element').mp (List.mem_cons_of_mem _ List.mem_cons_self)
    have hne : tableAlias ≠ other := by
      intro heq
      exact (List.nodup_cons.mp hdistinct).1 (heq ▸ List.mem_cons_self)
    rw [sourceVerdict]
    refine ⟨fun head => ⟨fun h => (by cases h), ?_⟩,
      failsWith_error.trans ⟨fun _ => ⟨tableAlias, other, element, element', hne, hfirst, hsecond⟩,
        fun _ => rfl⟩,
      failsWith_error.trans ⟨fun h => (by cases h), fun h => absurd hfirst (h tableAlias element)⟩⟩
    rintro ⟨a, e, _, honly, _⟩
    exact absurd ((honly _ _ hfirst).trans (honly _ _ hsecond).symm) hne

theorem mem_providers {tableAlias : String} {element : NodeId} :
    (element, tableAlias) ∈ m.providers env name aliases ↔
      tableAlias ∈ Table.keys aliases ∧ m.elementOf env name tableAlias = some element := by
  unfold providers Table.keys
  rw [List.mem_filterMap, List.mem_map]
  constructor
  · rintro ⟨entry, hentry, heq⟩
    obtain ⟨found, hfound, hpair⟩ := Option.map_eq_some_iff.mp heq
    cases hpair
    exact ⟨⟨entry, hentry, rfl⟩, hfound⟩
  · rintro ⟨⟨entry, hentry, rfl⟩, hfound⟩
    exact ⟨entry, hentry, by rw [hfound]; rfl⟩

theorem sublist_providers :
    ((m.providers env name aliases).map Prod.snd).Sublist (Table.keys aliases) := by
  induction aliases with
  | nil => exact .slnil
  | cons entry rest ih =>
    cases helement : m.elementOf env name entry.1 with
    | none =>
      rw [providers, List.filterMap_cons_none (by rw [helement]; rfl)]
      exact ih.cons _
    | some element =>
      rw [providers, List.filterMap_cons_some (by rw [helement]; rfl)]
      exact ih.cons_cons _

/-- Every order of the table gives the same verdict. -/
theorem exact_providers (hdistinct : (Table.keys scope.aliases).Nodup)
    (hperm : aliases.Perm scope.aliases) :
    m.Exact scope env name (sourceVerdict name scope.number (m.providers env name aliases)) := by
  have hkeys : (Table.keys aliases).Perm (Table.keys scope.aliases) := hperm.map Prod.fst
  refine exact_sourceVerdict ((hkeys.nodup_iff.mpr hdistinct).sublist sublist_providers)
    fun a e => ?_
  rw [mem_providers, hkeys.mem_iff]
  rfl

/-! ## Other orders of the table -/

theorem aliasEnv_withAliases (index : Nat) (aliases : List (String × AliasBinding))
    (binding : AliasBinding) :
    m.aliasEnv (topology.withAliases index aliases) binding = m.aliasEnv topology binding := by
  have hlink : m.aliasLink (topology.withAliases index aliases) binding =
      m.aliasLink topology binding := by
    cases binding with
    | path item => rfl
    | query item other =>
      unfold aliasLink Topology.scope? Topology.withAliases
      dsimp only
      rw [List.getElem?_modify]
      cases topology.queries[other]? with
      | none => rfl
      | some scope => by_cases h : index = other <;> simp [h]
  rw [aliasEnv, aliasEnv, hlink]

theorem Surveyed.withAliases {table : List (String × AliasBinding)}
    (h : m.Surveyed k topology env aliases s) (index : Nat) :
    m.Surveyed k (topology.withAliases index table) env aliases s := by
  induction aliases generalizing s with
  | nil => trivial
  | cons entry rest ih =>
    obtain ⟨t, hex, hrest⟩ := h
    exact ⟨t, by rw [aliasEnv_withAliases]; exact hex, ih hrest⟩

/-! ## References that reach the sources -/

variable (m) in
/-- The inspection of a path in the cache `s` comes, in the cache `u`, to the sources of a query:
the path leads to a reference that was not resolved before, its first name is not one of a parameter
or of a definition, no enclosing query binds it, and the context says that it is looked up in the
sources. -/
structure LooksInSources (k : Lookups) (path : Path) (s : Cache) (topology : Topology) (site : Site)
    (scope : QueryScope) (name : String) (rest : List String) (u : Cache) : Prop where
  found : m.siteAt? path = .ok (topology, site)
  kind : site.kind = .reference
  names : (m.segmentsOf site.holder).mapM m.segmentName = .ok (name :: rest)
  notParam : m.doc.flag site.holder "param" = false
  notGlobal : m.doc.flag site.holder "global" = false
  query : siteScope? site topology = some scope
  reaches : ∃ t, exec (m.prepare site.main) s = (.ok topology, t) ∧
    t.get? .resolution site.holder = none ∧ site.holder ∉ t.resolving ∧
    exec ((m.boundHead site topology site.context.policy.lexical name (name :: rest).length).run k)
      (begun t site.holder) = (.ok none, u)
  inSources : site.context.policy.dynamic = .source ∨ site.context = .orderBy ∧
    ((resultCarrier? site topology).bind fun owner => m.doc.memberIn? owner name) = none

namespace LooksInSources

variable (h : m.LooksInSources k path s topology site scope name rest u)
include h

theorem headFrom_eq :
    m.headFrom site topology name (name :: rest).length none = m.sourceHead site topology name := by
  rw [headFrom]
  rcases h.inSources with hsource | ⟨hc, hcarrier⟩
  · rw [hsource]
    rfl
  · rw [hc]
    change m.queryHead site topology name = _
    rw [queryHead, hcarrier, if_pos hc]

theorem headOf_eq : m.headOf site topology name (name :: rest).length =
    m.boundHead site topology site.context.policy.lexical name (name :: rest).length >>=
      m.headFrom site topology name (name :: rest).length := by
  rw [headOf, h.notParam, h.notGlobal, if_neg Bool.false_ne_true, if_neg Bool.false_ne_true,
    policyHead_eq]

theorem resolveSite_eq : m.resolveSite site topology =
    m.headOf site topology name (name :: rest).length >>= m.resolutionFrom site name rest := by
  rw [resolveSite, h.kind]
  exact resolveReference_eq h.names topology

theorem exec_resolveSite (ht : exec ((m.boundHead site topology site.context.policy.lexical name
      (name :: rest).length).run k) (begun t site.holder) = (.ok none, u)) :
    exec ((m.resolveSite site topology).run k) (begun t site.holder) =
      exec ((m.sourceHead site topology name >>= m.resolutionFrom site name rest).run k) u := by
  have hhead : exec ((m.headOf site topology name (name :: rest).length).run k)
      (begun t site.holder) = exec ((m.sourceHead site topology name).run k) u := by
    rw [h.headOf_eq, exec_run_bind_ok ht, h.headFrom_eq]
  rw [h.resolveSite_eq, exec_run_bind, exec_bind, hhead, ← exec_bind, ← exec_run_bind]

theorem inspect_fails {kind : ModelErrorKind}
    (hfails : FailsWith kind (exec ((m.sourceHead site topology name).run k) u).1) :
    FailsWith kind (exec (m.inspectWith k path) s).1 := by
  obtain ⟨t, hprepare, hnone, hfree, hbound⟩ := h.reaches
  obtain ⟨e, he, hkind⟩ := hfails
  rcases hex : exec ((m.sourceHead site topology name).run k) u with ⟨e' | head, v⟩
  all_goals rw [hex] at he
  all_goals cases he
  have hresolve := (h.exec_resolveSite hbound).trans (exec_run_bind_error hex _)
  rw [exec_inspectWith_prepared h.found hprepare, exec_inspectSite_error hnone hfree hresolve]
  exact failsWith_error.mpr hkind

/-- What is resolved starts with what the lookup found. -/
theorem exists_head {r : Resolution} (hr : (exec (m.inspectWith k path) s).1 = .ok r) :
    ∃ head, (exec ((m.sourceHead site topology name).run k) u).1 = .ok head ∧
      ∀ link scope env, head = .bound link scope env →
        r.scope = scope ∧ r.env = env ∧ r.links.head?.map Link.art = some link.art := by
  obtain ⟨t, hprepare, hnone, hfree, hbound⟩ := h.reaches
  rw [exec_inspectWith_prepared h.found hprepare] at hr
  obtain ⟨v, hv⟩ := exec_resolveSite_of_ok hnone hfree hr
  rw [h.exec_resolveSite hbound] at hv
  rcases hex : exec ((m.sourceHead site topology name).run k) u with ⟨e | head, w⟩
  · rw [exec_run_bind_error hex] at hv
    cases hv
  · rw [exec_run_bind_ok hex] at hv
    refine ⟨head, rfl, fun link scope env heq => ?_⟩
    rw [heq] at hv
    obtain ⟨hscope, henv, _, hfirst⟩ :=
      property_of_exec (meets_resolutionFrom site name rest link scope env) hv
    exact ⟨hscope, henv, hfirst⟩

end LooksInSources

/-! ## Orders of the table in sessions -/

variable (m) in
/-- The environments of the aliases are known at a stage. -/
def EnvsKnown (topology : Topology) (env : String → Option NodeId)
    (aliases : List (String × AliasBinding)) (n : Nat) : Prop :=
  ∀ entry ∈ aliases, (m.aliasEnv topology entry.2).infer m.doc (m.stage n) = some (env entry.1)

theorem exists_envsKnown
    (h : ∀ entry ∈ aliases, m.Infers (m.aliasEnv topology entry.2) (env entry.1)) :
    ∃ n, m.EnvsKnown topology env aliases n := by
  induction aliases with
  | nil => exact ⟨0, fun _ he => by cases he⟩
  | cons entry rest ih =>
    obtain ⟨n, hn⟩ := h entry List.mem_cons_self
    obtain ⟨k, hk⟩ := ih fun other ho => h other (List.mem_cons_of_mem _ ho)
    refine ⟨max n k, fun other ho => ?_⟩
    rcases List.mem_cons.mp ho with rfl | ho
    · exact infer_mono (stage_mono (Nat.le_max_left n k)) hn
    · exact infer_mono (stage_mono (Nat.le_max_right n k)) (hk other ho)

/-- The search asks for the environments of all aliases. -/
theorem exists_of_searchSources {knowledge : Knowledge} {number : Nat}
    {found : Option (NodeId × String)} {result : Option (NodeId × String)}
    (h : (m.searchSources topology name number aliases found).infer m.doc knowledge = some result) :
    ∀ entry ∈ aliases, ∃ env, (m.aliasEnv topology entry.2).infer m.doc knowledge = some env := by
  induction aliases generalizing found with
  | nil => exact fun _ he => by cases he
  | cons entry rest ih =>
    obtain ⟨tableAlias, binding⟩ := entry
    unfold searchSources at h
    rw [infer_bind] at h
    obtain ⟨env, henv, hrest⟩ := Option.bind_eq_some_iff.mp h
    have htail : ∀ entry ∈ rest,
        ∃ env, (m.aliasEnv topology entry.2).infer m.doc knowledge = some env := by
      split at hrest
      · exact ih hrest
      · split at hrest
        · cases hrest
        · exact ih hrest
    intro entry he
    rcases List.mem_cons.mp he with rfl | he
    · exact ⟨env, henv⟩
    · exact htail entry he

/-- The environments of all aliases are known before the resolution of a reference that is looked up
in them. -/
theorem LooksInSources.envsKnown (h : m.LooksInSources k path s topology site scope name rest u)
    (hbound : m.Infers (m.boundHead site topology site.context.policy.lexical name
      (name :: rest).length) none)
    (hinfers : ∀ entry ∈ scope.aliases, m.Infers (m.aliasEnv topology entry.2) (env entry.1))
    {n : Nat} {r : Resolution} (hr : (m.stage (n + 1)).resolution path = some r) :
    m.EnvsKnown topology env scope.aliases n := by
  rw [stage_resolution] at hr
  simp only [resolutionBy, h.found] at hr
  rw [h.resolveSite_eq, infer_bind] at hr
  obtain ⟨head, hhead, _⟩ := Option.bind_eq_some_iff.mp hr
  rw [h.headOf_eq, infer_bind] at hhead
  obtain ⟨found, hfound, hhead⟩ := Option.bind_eq_some_iff.mp hhead
  obtain rfl : found = none := Infers.unique ⟨n, hfound⟩ hbound
  rw [h.headFrom_eq, sourceHead, h.query] at hhead
  dsimp only at hhead
  rw [infer_bind] at hhead
  obtain ⟨result, hresult, _⟩ := Option.bind_eq_some_iff.mp hhead
  intro entry he
  obtain ⟨env', henv'⟩ := exists_of_searchSources hresult entry he
  rw [henv', Infers.unique ⟨n, henv'⟩ (hinfers entry he)]

section

variable {depth i : Nat} (hk : m.meanings.Answers depth k)
  (hsite : m.siteAt? path = .ok (topology, site))
  (hs : topology.scope? i = some scope) (hsub : ∀ entry ∈ aliases, entry ∈ scope.aliases)
include hk hsite hs hsub

/-- The environments that a session finds are inferred. -/
theorem Surveyed.infers (h : m.Surveyed k topology env aliases u)
    (hready : m.meanings.Ready depth u) :
    ∀ entry ∈ aliases, m.Infers (m.aliasEnv topology entry.2) (env entry.1) := by
  induction aliases generalizing u with
  | nil => exact fun _ he => by cases he
  | cons entry rest ih =>
    obtain ⟨t, hex, hrest⟩ := h
    have hmeets := meets_aliasEnv pathClosed_isCanonical hsite hs (hsub entry List.mem_cons_self)
    obtain ⟨⟨_, hinfers⟩, hready', _⟩ := infers_of_exec hk hmeets hready hex
    intro other ho
    rcases List.mem_cons.mp ho with rfl | ho
    · exact hinfers
    · exact ih (fun other ho => hsub other (List.mem_cons_of_mem _ ho)) hrest hready' other ho

/-- The environments that are known are found, in every order. -/
theorem surveyed_of_known {n : Nat} (hyields : m.Yields n depth k)
    (hknown : ∀ entry ∈ aliases, (m.aliasEnv topology entry.2).infer m.doc (m.stage n) =
      some (env entry.1)) (hready : m.meanings.Ready depth u) (hclear : m.Clear n u) :
    m.Surveyed k topology env aliases u := by
  induction aliases generalizing u with
  | nil => trivial
  | cons entry rest ih =>
    have hmeets := meets_aliasEnv pathClosed_isCanonical hsite hs (hsub entry List.mem_cons_self)
    obtain ⟨t, hex⟩ := hyields.run hk (governs_meanings.refines.meets hmeets)
      (hknown entry List.mem_cons_self) hready hclear
    obtain ⟨_, hready', hext⟩ := infers_of_exec hk hmeets hready hex
    exact ⟨t, hex, ih (fun other ho => hsub other (List.mem_cons_of_mem _ ho))
      (fun other ho => hknown other (List.mem_cons_of_mem _ ho)) hready' (hclear.extends hext)⟩

end

/-- Between requests, the environments of the aliases are found in every order of the table if they
are found in one: at the first stage at which all of them are known, the reference is not. -/
theorem surveyed_perm (hshort : m.ShortChains) (hs : m.meanings.Settled s) (hp : m.IsCanonical path)
    (h : m.LooksInSources (m.lookups (2 * m.doc.size + 1)) path s topology site scope name rest u)
    (hsurvey : m.Surveyed (m.lookups (2 * m.doc.size + 1)) topology env scope.aliases u)
    (hperm : aliases.Perm scope.aliases) :
    m.Surveyed (m.lookups (2 * m.doc.size + 1)) topology env aliases u := by
  obtain ⟨t, hprepare, _, _, hbound⟩ := h.reaches
  obtain ⟨i, _, hscope⟩ := Option.bind_eq_some_iff.mp h.query
  obtain ⟨t', hprepare', _, _, _, hbegun, hclears⟩ := exec_inspect_begins hs hp h.found
  obtain rfl : t = t' := congrArg Prod.snd (hprepare.symm.trans hprepare')
  have hk : m.meanings.Answers (2 * m.doc.size + 1) (m.lookups (2 * m.doc.size + 1)) :=
    Theory.answers_lookups lawful_meanings _
  have hsearch :
      (m.boundHead site topology site.context.policy.lexical name (name :: rest).length).Meets
        (m.rules m.IsCanonical).contract fun found =>
          (m.headFrom site topology name (name :: rest).length found).Meets
            (m.rules m.IsCanonical).contract fun head =>
              (m.resolutionFrom site name rest head).Meets (m.rules m.IsCanonical).contract
                (m.Resolved topology site) := by
    have hmeets := meets_resolveSite pathClosed_isCanonical hp h.found
    rw [h.resolveSite_eq] at hmeets
    have hhead := hmeets.of_bind
    rw [h.headOf_eq] at hhead
    exact hhead.of_bind
  obtain ⟨⟨_, hnone⟩, hready, hext⟩ := infers_of_exec hk hsearch hbegun hbound
  have hinfers := hsurvey.infers hk h.found hscope (fun _ he => he) hready
  -- all environments are known at `n`, and not before
  obtain ⟨n, hknown, hfirst⟩ : ∃ n, m.EnvsKnown topology env scope.aliases n ∧
      ∀ k, k < n → ¬ m.EnvsKnown topology env scope.aliases k := by
    classical
    have hex := exists_envsKnown hinfers
    exact ⟨Nat.find hex, Nat.find_spec hex, fun k hlt => Nat.find_min hex hlt⟩
  have hunknown : (m.stage n).resolution path = none := by
    cases n with
    | zero => rfl
    | succ n =>
      cases hr : (m.stage (n + 1)).resolution path with
      | none => rfl
      | some r => exact absurd (h.envsKnown hnone hinfers hr) (hfirst n (Nat.lt_succ_self n))
  have hclear : m.Clear n u := (hclears n hunknown).extends hext
  exact surveyed_of_known hk h.found hscope (fun entry he => hperm.mem_iff.mp he)
    (yields_lookups hshort n _).1 (fun entry he => hknown entry (hperm.mem_iff.mp he)) hready hclear

/-! ## Lookups -/

/-- A name that is looked up in the sources of a query is found if and only if exactly one table
alias of the query has an element of that name in its environment, and then it denotes this element
by this alias. It is ambiguous if and only if several aliases provide it, and unknown if and only if
none does. The inspection of the reference goes on with what was found, or fails in the same way.
All this holds for every order of the table in which the environments are found. These are all
orders, if the chains of types are short, the session has read paths as those of nodes, and the path
is read so too. -/
theorem source_lookup_exact {m : Model} {k : Lookups} {path : Path} {s : Cache}
    {topology : Topology} {site : Site} {scope : QueryScope} {name : String} {rest : List String}
    {u : Cache} (h : m.LooksInSources k path s topology site scope name rest u)
    {env : String → Option NodeId} (hsurvey : m.Surveyed k topology env scope.aliases u) :
    m.Exact scope env name (exec ((m.sourceHead site topology name).run k) u).1 ∧
    (∀ r, (exec (m.inspectWith k path) s).1 = .ok r →
      ∃ tableAlias element, m.Provides scope env name tableAlias element ∧ r.scope = .source ∧
        r.env = some (.source tableAlias scope.number) ∧
        r.links.head?.map Link.art = some element) ∧
    (∀ kind, FailsWith kind (exec ((m.sourceHead site topology name).run k) u).1 →
      FailsWith kind (exec (m.inspectWith k path) s).1) ∧
    (∀ i aliases, site.query = some i → aliases.Perm scope.aliases →
      (m.Surveyed k topology env aliases u →
        m.Exact scope env name
          (exec ((m.sourceHead site (topology.withAliases i aliases) name).run k) u).1) ∧
      (m.ShortChains → m.ReachableBy m.IsFaithful s → m.IsFaithful path →
        k = m.lookups (2 * m.doc.size + 1) → m.Surveyed k topology env aliases u)) := by
  obtain ⟨i, hquery, hs⟩ := Option.bind_eq_some_iff.mp h.query
  obtain ⟨_, _, _, hbuilt, _, _⟩ := siteAt?_eq_ok h.found
  have hdistinct : (Table.keys scope.aliases).Nodup := (hbuilt.complete i scope hs).aliases.distinct
  have hexact : m.Exact scope env name (exec ((m.sourceHead site topology name).run k) u).1 := by
    rw [exec_sourceHead name h.query hsurvey]
    exact exact_providers hdistinct (.refl _)
  refine ⟨hexact, fun r hr => ?_, fun kind hfails => h.inspect_fails hfails,
    fun j aliases hj hperm => ⟨?_, ?_⟩⟩
  · obtain ⟨head, hhead, hfirst⟩ := h.exists_head hr
    obtain ⟨tableAlias, element, hprovides, _, heq⟩ := (hexact.found head).mp hhead
    exact ⟨tableAlias, element, hprovides, hfirst _ _ _ heq⟩
  · intro hother
    obtain rfl : i = j := Option.some.inj (hquery.symm.trans hj)
    have hscope : siteScope? site (topology.withAliases i aliases) =
        some { scope with aliases } := by
      rw [siteScope?, hquery]
      exact Topology.scope?_withAliases hs aliases
    rw [exec_sourceHead name hscope (hother.withAliases i)]
    exact exact_providers hdistinct hperm
  · intro hshort hreach hfaithful hk
    obtain ⟨node, hnode⟩ := hfaithful topology site h.found
    rw [hk] at h hsurvey ⊢
    exact surveyed_perm hshort (settled_of_faithful hreach) ⟨node, rfl⟩ { h with found := hnode }
      hsurvey hperm

/-! ### A join of two sources -/

def factorModel : Model :=
  ⟨.ofDefinitions [
    ("E", .object [("elements", .object [("a", .object [])])]),
    ("F", .object [("elements", .object [("b", .object [])])]),
    ("V", .object [("query", .object [("SELECT", .object [
      ("from", .object [("join", .string "cross"), ("args", .array [
        .object [("ref", .array [.string "E"])],
        .object [("ref", .array [.string "F"])]])]),
      ("columns", .array [.object [("ref", .array [.string "b"])]])])])])], {}⟩

def factorScope : QueryScope :=
  { number := 1, node := 9, select := 10, aliases := [("E", .path 14), ("F", .path 17)],
    elementsOwner := none, next := none }

def factorTopology : Topology :=
  ⟨8, [factorScope], [(10, 0), (9, 0)]⟩

/-- The column. -/
def factorSite : Site :=
  { kind := .reference, holder := 21, context := .columns, main := 8, query := some 0,
    member := none, memberParent := none, base := none }

def factorLookups : Lookups :=
  factorModel.lookups (2 * factorModel.doc.size + 1)

/-- The environments of the aliases. -/
def factorEnv (tableAlias : String) : Option NodeId :=
  if tableAlias = "E" then some 2 else some 5

/-- The cache in which the column is looked up in the sources. -/
def factorCache : Cache :=
  (exec ((factorModel.boundHead factorSite factorTopology .full "b" 1).run factorLookups)
    (begun (exec (factorModel.prepare 8) Cache.empty).2 21)).2

theorem looksInSources_factorSite :
    factorModel.LooksInSources factorLookups (factorModel.doc.pathOf 21) Cache.empty
    factorTopology factorSite factorScope "b" [] factorCache where
  found := eq_ok_of_toOption (by decide +kernel)
  kind := rfl
  names := eq_ok_of_toOption (by decide +kernel)
  notParam := by decide +kernel
  notGlobal := by decide +kernel
  query := rfl
  reaches := ⟨_, Prod.ext (eq_ok_of_toOption (by decide +kernel)) rfl, by decide +kernel,
    by decide +kernel, Prod.ext (eq_ok_of_toOption (by decide +kernel)) rfl⟩
  inSources := .inl rfl

/-- The column is found in the second source, also if this one comes first. -/
theorem factor_found_in_one_source :
    factorModel.LooksInSources factorLookups (factorModel.doc.pathOf 21) Cache.empty
      factorTopology factorSite factorScope "b" [] factorCache ∧
    factorModel.Surveyed factorLookups factorTopology factorEnv factorScope.aliases factorCache ∧
    (exec ((factorModel.sourceHead factorSite factorTopology "b").run factorLookups)
      factorCache).1 = .ok (.bound ⟨7, none⟩ .source (some (.source "F" 1))) ∧
    (exec ((factorModel.sourceHead factorSite
        (factorTopology.withAliases 0 [("F", .path 17), ("E", .path 14)]) "b").run factorLookups)
      factorCache).1 = .ok (.bound ⟨7, none⟩ .source (some (.source "F" 1))) := by
  have hsurvey : factorModel.Surveyed factorLookups factorTopology factorEnv factorScope.aliases
      factorCache :=
    ⟨_, Prod.ext (eq_ok_of_toOption (by decide +kernel)) rfl,
      _, Prod.ext (eq_ok_of_toOption (by decide +kernel)) rfl, trivial⟩
  have hfirst : factorModel.elementOf factorEnv "b" "E" = none := by decide +kernel
  have hsecond : factorModel.elementOf factorEnv "b" "F" = some 7 := by decide +kernel
  have honly : ∀ other element, factorModel.Provides factorScope factorEnv "b" other element →
      other = "F" := by
    rintro other element ⟨hmem, helement⟩
    rcases List.mem_cons.mp hmem with rfl | hmem
    · rw [hfirst] at helement
      cases helement
    · exact List.mem_singleton.mp hmem
  have hprovider : ∃ tableAlias element, factorModel.Provides factorScope factorEnv "b"
      tableAlias element ∧
      (∀ other element', factorModel.Provides factorScope factorEnv "b" other element' →
        other = tableAlias) ∧
      Head.bound ⟨7, none⟩ .source (some (.source "F" 1)) =
        .bound ⟨element, none⟩ .source (some (.source tableAlias factorScope.number)) :=
    ⟨"F", 7, ⟨by decide, hsecond⟩, honly, rfl⟩
  obtain ⟨hexact, _, _, horder⟩ := source_lookup_exact looksInSources_factorSite hsurvey
  obtain ⟨hother, hall⟩ := horder 0 [("F", .path 17), ("E", .path 14)] rfl (.swap _ _ _)
  exact ⟨looksInSources_factorSite, hsurvey, (hexact.found _).mpr hprovider,
    ((hother (hall (shortChains_of_size (by decide +kernel)) .new
      (isFaithful_pathOf _ 21) rfl)).found _).mpr hprovider⟩

/-! ### A join of sources on a chain that is too long -/

/-- A query with three sources. The first two are the middle and the start of a chain, whose end is
the last definition; the third one has an element. -/
def detourDefinitions : List (String × Json) :=
  [("V", .object [("query", .object [("SELECT", .object [
      ("from", .object [("join", .string "cross"), ("args", .array [
        .object [("ref", .array [.string (chainName 500)]), ("as", .string "A")],
        .object [("ref", .array [.string (chainName 0)]), ("as", .string "B")],
        .object [("ref", .array [.string "E"]), ("as", .string "C")]])]),
      ("columns", .array [.object [("ref", .array [.string "x"])]])])])]),
    ("E", .object [("elements", .object [("x", .object [])])]),
    (chainName (maxChainLength + 1), .object [("elements", .object [])])]

theorem distinctKeys_detourDefinitions :
    (schemaTree (detourDefinitions ++ chainDefinitions 0 (maxChainLength + 1))).DistinctKeys := by
  refine distinctKeys_chainDefinitions (by decide +kernel) fun i hi hname => ?_
  rcases List.mem_cons.mp hname with hv | hname
  · exact ne_chainName (by decide) i hv.symm
  rcases List.mem_cons.mp hname with he | hname
  · exact ne_chainName (by decide) i he.symm
  · exact Nat.ne_of_lt hi (chainName_injective (List.mem_singleton.mp hname))

def detourModel : Model :=
  ⟨.ofDefinitions (detourDefinitions ++ chainDefinitions 0 (maxChainLength + 1))
    distinctKeys_detourDefinitions, {}⟩

/-- The nodes of the chain. -/
def detourChain (index : Nat) : NodeId :=
  if index < maxChainLength + 1 then 29 + 2 * index else 27

theorem holdsChain_detourModel :
    detourModel.HoldsChain (maxChainLength + 1) fun i => 29 + 2 * i := by
  have hholds : detourModel.HoldsChain (maxChainLength + 1) fun i =>
      2 + Json.sizeProps detourDefinitions + 2 * i :=
    holdsChain_of_layout rfl rfl
  have hsize : Json.sizeProps detourDefinitions = 27 := rfl
  rwa [hsize] at hholds

theorem detourChain_of_lt {i : Nat} (hi : i < maxChainLength + 1) : detourChain i = 29 + 2 * i :=
  if_pos hi

theorem definition?_detourChain {i : Nat} (hi : i ≤ maxChainLength + 1) :
    detourModel.doc.definition? (chainName i) = some (detourChain i) := by
  rcases Nat.lt_or_eq_of_le hi with hlt | rfl
  · rw [detourChain_of_lt hlt]
    exact holdsChain_detourModel.definition?_eq hlt
  · refine Document.prop?_of_mem_entries ?_
    change _ ∈ detourModel.doc.definitionEntries
    rw [definitionEntries_of_layout rfl rfl, Json.propHandles_append]
    exact List.mem_append_left _ (List.mem_cons_of_mem _
      (List.mem_cons_of_mem _ List.mem_cons_self))

theorem offersElements_detourModel {node : NodeId} (h : node ∈ [24, 27]) :
    detourModel.OffersElements node := by
  have hall : ∀ node ∈ [24, 27], detourModel.doc.itemType? node = none ∧
      (detourModel.doc.elements? node).isSome = true := by decide +kernel
  exact ⟨(hall node h).1, (hall node h).2⟩

theorem offersElements_detourChain :
    detourModel.OffersElements (detourChain (maxChainLength + 1)) :=
  offersElements_detourModel (by decide)

theorem finiteChain_detourChain : detourModel.FiniteChain (maxChainLength + 1) detourChain := by
  refine ⟨fun i hi => ?_, fun i hi => ?_, fun i hi => ⟨0, ?_⟩,
    .inl offersElements_detourChain.hasStructure⟩
  · have hdefinition := Document.container?_of_prop? (definition?_detourChain hi)
    rw [Document.owner?_of_isDefinition (Document.isDefinition_iff.mpr hdefinition.1)]
    rfl
  · rw [detourChain_of_lt hi]
    exact holdsChain_detourModel.hasStructure_eq hi
  · rw [detourChain_of_lt hi, holdsChain_detourModel.chainLink_eq hi, definition?_detourChain hi]
    rfl

theorem isPlain_detourChain :
    ∀ i ≤ maxChainLength + 1, detourModel.doc.hasStructure (detourChain i) = false →
    detourModel.IsPlain (detourChain i) := by
  intro i hi hplain
  rcases Nat.lt_or_eq_of_le hi with hlt | rfl
  · rw [detourChain_of_lt hlt]
    exact ⟨_, holdsChain_detourModel.chainLink_eq hlt⟩
  · rw [offersElements_detourChain.hasStructure] at hplain
    cases hplain

def detourScope : QueryScope :=
  { number := 1, node := 3, select := 4,
    aliases := [("A", .path 8), ("B", .path 12), ("C", .path 16)],
    elementsOwner := none, next := none }

def detourTopology : Topology :=
  ⟨2, [detourScope], [(4, 0), (3, 0)]⟩

/-- A reference of the query: a source, or the column. -/
def detourSite (holder : NodeId) (context : Context) : Site :=
  { kind := .reference, holder, context, main := 2, query := some 0, member := none,
    memberParent := none, base := none }

/-- The sources and the column, each with its name. -/
def detourReferences : List (NodeId × String × Context) :=
  [(8, chainName 500, .source), (12, chainName 0, .source), (16, "E", .source), (21, "x", .columns)]

theorem reads_detourModel {holder : NodeId} {name : String} {context : Context}
    (h : (holder, name, context) ∈ detourReferences) :
    detourModel.siteAt? (detourModel.doc.pathOf holder) =
      .ok (detourTopology, detourSite holder context) ∧
      (detourModel.segmentsOf holder).mapM detourModel.segmentName = .ok [name] ∧
      detourModel.doc.flag holder "param" = false ∧
        detourModel.doc.flag holder "global" = false := by
  have hall : ∀ entry ∈ detourReferences,
      (detourModel.siteAt? (detourModel.doc.pathOf entry.1)).toOption =
        some (detourTopology, detourSite entry.1 entry.2.2) ∧
      ((detourModel.segmentsOf entry.1).mapM detourModel.segmentName).toOption = some [entry.2.1] ∧
      detourModel.doc.flag entry.1 "param" = false ∧
        detourModel.doc.flag entry.1 "global" = false := by
    decide +kernel
  obtain ⟨hsite, hnames, hflags⟩ := hall _ h
  exact ⟨eq_ok_of_toOption hsite, eq_ok_of_toOption hnames, hflags⟩

theorem namesSource_detourModel {item definition : NodeId} {name : String}
    (h : (item, name, Context.source) ∈ detourReferences)
    (hd : detourModel.doc.definition? name = some definition) :
    detourModel.NamesSource item definition detourTopology (detourSite item .source) := by
  obtain ⟨hsite, hnames, hparam, hglobal⟩ := reads_detourModel h
  exact ⟨hsite, rfl, rfl, hparam, hglobal, name, hnames, hd⟩

def detourLookups : Lookups :=
  detourModel.lookups (2 * detourModel.doc.size + 1)

/-- The cache in which the column is looked up in the sources. -/
def detourCache : Cache :=
  begun (exec (detourModel.prepare 2) Cache.empty).2 21

/-- A new session knows no effective types and no resolutions when it comes to the column. -/
theorem ready_detourCache : detourModel.meanings.Ready (2 * detourModel.doc.size + 1) detourCache ∧
    (∀ node, detourCache.get? .effectiveType node = none) ∧
    (∀ holder, detourCache.get? .resolution holder = none) ∧
    detourCache.resolving = [21] := by
  obtain ⟨hsite, _⟩ := reads_detourModel
    (by simp [detourReferences] : (21, "x", Context.columns) ∈ detourReferences)
  obtain ⟨t, hprepare, _, horderly, hsteady, _⟩ :=
    exec_inspectWith_ok detourLookups orderly_empty hsite
  have ht : t = (exec (detourModel.prepare 2) Cache.empty).2 := congrArg Prod.snd hprepare.symm
  have hfree : 21 ∉ t.resolving := by
    rw [hsteady.resolving]
    exact List.not_mem_nil
  rw [detourCache, ← ht]
  refine ⟨Theory.Ready.begun ⟨settled_empty.agrees.steady horderly hsteady, room_le t⟩ hsite hfree,
    fun node => ?_, fun holder => ?_, congrArg (21 :: ·) hsteady.resolving⟩
  · exact hsteady.same .effectiveType node rfl (by decide)
  · exact hsteady.same .resolution holder rfl (by decide)

theorem boundHead_detourSite :
    detourModel.boundHead (detourSite 21 .columns) detourTopology .full "x" 1 = .answer none := by
  have hvisible : detourModel.aliasesVisible (detourSite 21 .columns) 1 = false := by decide +kernel
  rw [boundHead, lexicalHead, hvisible]
  rfl

theorem looksInSources_detourSite :
    detourModel.LooksInSources detourLookups (detourModel.doc.pathOf 21) Cache.empty
    detourTopology (detourSite 21 .columns) detourScope "x" [] detourCache := by
  obtain ⟨hsite, hnames, hparam, hglobal⟩ :=
    reads_detourModel (by simp [detourReferences] : (21, "x", Context.columns) ∈ detourReferences)
  obtain ⟨t, hprepare, _, _, hsteady, _⟩ := exec_inspectWith_ok detourLookups orderly_empty hsite
  refine ⟨hsite, rfl, hnames, hparam, hglobal, rfl, ⟨t, hprepare, ?_, ?_, ?_⟩, .inl rfl⟩
  · exact hsteady.same .resolution 21 rfl (by decide)
  · rw [hsteady.resolving]
    exact List.not_mem_nil
  · have ht : t = (exec (detourModel.prepare 2) Cache.empty).2 := congrArg Prod.snd hprepare.symm
    change exec ((detourModel.boundHead (detourSite 21 .columns) detourTopology .full "x" 1).run
      detourLookups) _ = _
    rw [boundHead_detourSite, ht]
    rfl

/-- The environments of the aliases. -/
def detourEnv (tableAlias : String) : Option NodeId :=
  if tableAlias = "C" then some 24 else some 27

theorem namesSource_middle :
    detourModel.NamesSource 8 (detourChain 500) detourTopology (detourSite 8 .source) :=
  namesSource_detourModel (by simp [detourReferences]) (definition?_detourChain (by decide))

theorem namesSource_start :
    detourModel.NamesSource 12 (detourChain 0) detourTopology (detourSite 12 .source) :=
  namesSource_detourModel (by simp [detourReferences]) (definition?_detourChain (by decide))

theorem namesSource_element :
    detourModel.NamesSource 16 24 detourTopology (detourSite 16 .source) :=
  namesSource_detourModel (by simp [detourReferences])
    (by decide +kernel : detourModel.doc.definition? "E" = some 24)

/-- The walk from the middle of the chain reaches its end, and the one from its start the middle. -/
theorem surveyed_detour :
    detourModel.Surveyed detourLookups detourTopology detourEnv detourScope.aliases
      detourCache := by
  obtain ⟨hready, htypes, hresolutions, hresolving⟩ := ready_detourCache
  have hunmarked : ∀ {t}, Extends detourCache t →
      ∀ node, t.get? .effectiveType node ≠ some .inProgress := by
    intro t hext node hmark
    rw [hext.marks, htypes] at hmark
    cases hmark
  have hfree : ∀ {t} {item : NodeId}, Extends detourCache t → item ≠ 21 → item ∉ t.resolving := by
    intro t item hext hne
    rw [hext.resolving, hresolving]
    exact fun hmem => hne (List.mem_singleton.mp hmem)
  obtain ⟨t, hmiddle, ht, hext, hknown⟩ := namesSource_middle.found_on_chain finiteChain_detourChain
    isPlain_detourChain hready (hfree (.refl _) (by decide)) offersElements_detourChain (by decide)
    (hunmarked (.refl _)) (.inl (by decide)) detourTopology
  have hremembered : t.get? .effectiveType (detourChain 500) ≠ none := by
    rw [hknown (hresolutions _)]
    exact Option.some_ne_none _
  obtain ⟨u, hstart, hu, hext', _⟩ := namesSource_start.found_on_chain finiteChain_detourChain
    isPlain_detourChain ht (hfree hext (by decide)) offersElements_detourChain (by decide)
    (hunmarked hext) (.inr ⟨500, by decide, by decide, by decide, hremembered⟩) detourTopology
  have hext'' := hext.trans _ _ _ hext'
  obtain ⟨v, helement⟩ := namesSource_element.found_structured
    (offersElements_detourModel (by decide)) hu
    (hfree hext'' (by decide)) (hunmarked hext'') detourTopology
  exact ⟨t, hmiddle, u, hstart, v, helement, trivial⟩

/-- The column is found in the third source, if the middle of the chain is asked for its environment
before the start is. If the start comes first, a cycle is reported, though the environments were
found in the other order. -/
theorem reordered_sources_report_cycle :
    detourModel.LooksInSources detourLookups (detourModel.doc.pathOf 21) Cache.empty detourTopology
      (detourSite 21 .columns) detourScope "x" [] detourCache ∧
    detourModel.Surveyed detourLookups detourTopology detourEnv detourScope.aliases detourCache ∧
    (exec ((detourModel.sourceHead (detourSite 21 .columns) detourTopology "x").run detourLookups)
      detourCache).1 =
      .ok (.bound ⟨26, none⟩ .source (some (.source "C" 1))) ∧
    [("B", .path 12), ("A", .path 8), ("C", .path 16)].Perm detourScope.aliases ∧
    FailsWith .circularType (exec ((detourModel.sourceHead (detourSite 21 .columns)
      (detourTopology.withAliases 0 [("B", .path 12), ("A", .path 8), ("C", .path 16)]) "x").run
        detourLookups)
      detourCache).1 := by
  have hproviders : detourModel.providers detourEnv "x" detourScope.aliases =
      [(26, "C")] := by decide +kernel
  refine ⟨looksInSources_detourSite, surveyed_detour, ?_, .swap _ _ _, ?_⟩
  · rw [exec_sourceHead "x" rfl surveyed_detour, hproviders]
    rfl
  · obtain ⟨hready, htypes, hresolutions, hresolving⟩ := ready_detourCache
    have hfree : 12 ∉ detourCache.resolving := by
      rw [hresolving]
      decide
    have hcycle := namesSource_start.fails_on_chain finiteChain_detourChain isPlain_detourChain
      hready hfree (by decide) (hresolutions _) htypes
    exact failsWith_run_bind (failsWith_run_bind (hcycle _) _) _

end Model

end SchemaRefs
