import SchemaRefs.Proofs.FollowedChains
import SchemaRefs.Proofs.NavigableSources
import SchemaRefs.Proofs.WellFormedTopologies

/-!
# What filters see

A segment of a reference can be decorated with a filter. The first name of a reference in the filter
is looked up in the environment of the segment. For the last segment this is the environment that
the resolution of the outer reference has for it; for the others it is found again from what the
segment denotes.

* `EnvsTrue`: in every resolution, the environment of a link is that of what the link denotes, with
  one exception: a table alias for a sub-query denotes the node of the query, and has the node with
  the result elements as its environment;
* `filter_sees_segment`: filters see the environment of their segment, except on a sub-query that is
  not the last segment. There they see what the node of the query declares itself.
-/

namespace SchemaRefs

/-- The binding is a table alias that stands for a sub-query. -/
def Topology.BindsSubquery (topology : Topology) (binding : Option Binding) : Prop :=
  ∃ name scope item index, binding = some (.tableAlias name scope.number) ∧
    topology.byNumber? scope.number = some scope ∧
    Table.get? scope.aliases name = some (.query item index)

namespace Model

open Inquiry CacheM

variable {m : Model} {s t : Cache} {path : Path} {topology : Topology} {site : Site} {name : String}
  {rest : List String} {env : Option NodeId} {r : Resolution}

/-! ## The links of a resolution -/

variable (m) in
/-- The environments of the links are those of what the links denote, but for one that the first
link came with. -/
def EnvsFrom (first : Link) (links : List Link) : Prop :=
  ∀ i link e, links[i]? = some link → link.env = some e →
    m.Infers (m.envOf link.art) (some e) ∨ i = 0 ∧ link.art = first.art ∧ first.env = some e

theorem envsFrom_followLinks (name : String) (first : Link) (rest : List String) :
    (m.followLinks name first rest).Meets m.known (m.EnvsFrom first) := by
  induction rest generalizing name first with
  | nil =>
    intro i link e hi he
    cases i with
    | zero =>
      cases hi
      exact .inr ⟨rfl, rfl, he⟩
    | succ i => cases hi
  | cons next rest ih =>
    have hrest : ∀ env, m.Infers (m.envOf first.art) (some env) ∨ first.env = some env →
        (m.linksIn first next rest env).Meets m.known (m.EnvsFrom first) := by
      intro env henv
      unfold linksIn
      split
      · trivial
      · refine Meets.bind (ih next _) fun links hlinks i link e hi he => ?_
        cases i with
        | zero =>
          cases hi
          cases he
          exact henv.imp (fun h => h) fun h => ⟨rfl, rfl, h⟩
        | succ i =>
          -- the later links come without an environment
          exact .inl ((hlinks i link e hi he).resolve_right fun h => by cases h.2.2)
    unfold followLinks
    dsimp only
    split
    · next env henv => exact hrest env (.inr henv)
    · refine Meets.bind (meets_known (m.envOf first.art)) fun env henv => ?_
      split
      · exact hrest _ (.inl henv)
      · trivial

theorem envsFrom_closeLinks {first : Link} {links : List Link} (lastName : String)
    (hl : m.EnvsFrom first links) :
    (m.closeLinks site lastName links).Meets m.known (m.EnvsFrom first) := by
  unfold closeLinks
  split
  · exact hl
  · next last hlast =>
    split
    · exact hl
    · refine Meets.bind (meets_known (m.envOf last.art)) fun env henv => ?_
      split
      · trivial
      · intro i link e hi he
        rw [List.getElem?_append] at hi
        split at hi
        · next hlt =>
          rw [List.getElem?_dropLast, if_pos (by rwa [List.length_dropLast] at hlt)] at hi
          exact hl i link e hi he
        · have hlink := List.mem_singleton.mp (List.mem_of_getElem? hi)
          rw [hlink] at he ⊢
          cases he
          exact .inl henv

theorem envsFrom_resolutionFrom (site : Site) (name : String) (rest : List String) (first : Link)
    (scope : Scope) (binding : Option Binding) :
    (m.resolutionFrom site name rest (.bound first scope binding)).Meets m.known fun r =>
      r.env = binding ∧ m.EnvsFrom first r.links :=
  Meets.bind (envsFrom_followLinks name first rest) fun _ hlinks =>
    Meets.bind (envsFrom_closeLinks _ hlinks) fun _ hclosed => ⟨rfl, hclosed⟩

/-! ## The first link -/

variable (m) in
/-- The environment of the first link is that of what the link denotes, or the link stands for a
sub-query. -/
def HeadEnv (topology : Topology) : Head → Prop
  | .unlinked _ => True
  | .bound link _ binding =>
    ∀ e, link.env = some e → m.Infers (m.envOf link.art) (some e) ∨ topology.BindsSubquery binding

theorem headEnv_unset (art : NodeId) (scope : Scope) (binding : Option Binding) :
    m.HeadEnv topology (.bound ⟨art, none⟩ scope binding) :=
  fun _ h => by cases h

theorem headEnv_inferred {art : NodeId} (h : m.Infers (m.envOf art) env) (scope : Scope)
    (binding : Option Binding) : m.HeadEnv topology (.bound ⟨art, env⟩ scope binding) := by
  intro e he
  obtain rfl : env = some e := he
  exact .inl h

/-- The first link of a source comes without an environment, so that the last link has the one of
what it denotes. -/
theorem inferred_of_source (hsite : m.siteAt? path = .ok (topology, site))
    (hkind : site.kind = .reference) (hc : site.context = .source) (hr : m.Denotes path r)
    {last : Link} (hlast : r.links.getLast? = some last) {e : NodeId} (he : last.env = some e) :
    m.Infers (m.envOf last.art) (some e) := by
  have hmeets : (m.resolveSite site topology).Meets m.known fun r =>
      ∃ art, m.EnvsFrom ⟨art, none⟩ r.links := by
    rw [resolveSite, hkind]
    refine meets_reference (fun _ => trivial) fun name rest _ =>
      (meets_known_of_anything (head_of_source hc topology name _)).weaken fun head hh => ?_
    obtain ⟨art, scope, rfl, _⟩ := hh
    exact (envsFrom_resolutionFrom site name rest ⟨art, none⟩ scope none).weaken fun r hr =>
      ⟨art, hr.2⟩
  obtain ⟨art, henvs⟩ := ((denotes_iff_infers hsite).mp hr).meets hmeets
  rw [List.getLast?_eq_getElem?] at hlast
  exact (henvs _ last e hlast he).resolve_right fun h => by cases h.2.2

theorem headEnv_aliasLink (hsite : m.siteAt? path = .ok (topology, site)) {i : Nat}
    {scope : QueryScope} (hs : topology.scope? i = some scope) {name : String}
    {binding : AliasBinding} (ha : Table.get? scope.aliases name = some binding) :
    (m.aliasLink topology binding).Meets m.known fun link =>
      ∀ kind, m.HeadEnv topology (.bound link kind (some (.tableAlias name scope.number))) := by
  obtain ⟨_, hd, hb, hbuilt, _, _⟩ := siteAt?_eq_ok hsite
  cases binding with
  | path item =>
    obtain ⟨_, hleaf⟩ := leaf_of_alias hbuilt hs (Table.mem_of_get? ha)
    obtain ⟨source, hsource, _, hkind, _, hc, _⟩ :=
      siteAt?_source (Document.isDefinition_of_pathDefinition hd) hb hs hleaf
    refine Meets.bind (meets_known (resolutionAt (m.doc.pathOf item))) fun r hr => ?_
    split
    · next link hlast =>
      exact fun _ e he => .inl (inferred_of_source hsource hkind hc
        (infers_resolutionAt.mp hr) hlast he)
    · trivial
  | query item index =>
    have hnumber : scope.number = i + 1 := hbuilt.wellFormed.number i scope hs
    refine (meets_known (m.aliasLink topology (.query item index))).weaken fun link _ _ e _ =>
      .inr ⟨name, scope, item, index, rfl, ?_, ha⟩
    rw [hnumber]
    exact hs

theorem vouches_headEnv (hsite : m.siteAt? path = .ok (topology, site)) :
    m.Vouches topology m.known fun link binding =>
      ∀ scope, m.HeadEnv topology (.bound link scope binding) where
  free := fun x => (meets_known x).weaken fun _ _ => trivial
  unset := fun art binding scope => headEnv_unset art scope binding
  env := fun node => (meets_known (m.envOf node)).weaken fun _ henv binding scope =>
    headEnv_inferred henv scope binding
  tableAlias := fun hs ha => headEnv_aliasLink hsite hs ha

theorem headEnv_headOf (hsite : m.siteAt? path = .ok (topology, site)) (name : String)
    (segments : Nat) :
    (m.headOf site topology name segments).Meets m.known (m.HeadEnv topology) := by
  refine (found_headOf (vouches_headEnv hsite) site name segments).weaken fun head hh => ?_
  cases head with
  | bound link scope binding => exact hh.1.1 scope
  | unlinked scope => trivial

/-! ## All links -/

variable (m) in
/-- The environments of the links are those of what the links denote, unless the first link stands
for a sub-query. -/
def EnvsTrue (topology : Topology) (r : Resolution) : Prop :=
  ∀ i link e, r.links[i]? = some link → link.env = some e →
    m.Infers (m.envOf link.art) (some e) ∨ i = 0 ∧ topology.BindsSubquery r.env

theorem envsTrue_resolveSite (hsite : m.siteAt? path = .ok (topology, site)) :
    (m.resolveSite site topology).Meets m.known (m.EnvsTrue topology) := by
  -- a definition or a member has one link, to itself
  have hself : ∀ {node : NodeId} {parent : Option NodeId} {scope : Scope} {env : Option NodeId},
      m.Infers (m.envOf node) env → m.EnvsTrue topology
        { links := [⟨node, env⟩], art := some node, parent, scope, env := none,
          context := site.context } := by
    intro node parent scope env henv i link e hi he
    have hlink := List.mem_singleton.mp (List.mem_of_getElem? hi)
    rw [hlink] at he ⊢
    obtain rfl : env = some e := he
    exact .inl henv
  unfold resolveSite
  split
  · exact Meets.bind (meets_known (m.envOf site.main)) fun env henv => hself henv
  · exact Meets.bind (meets_known (m.envOf site.holder)) fun env henv => hself henv
  · refine meets_reference (fun _ => trivial) fun name rest _ =>
      (headEnv_headOf hsite name _).weaken fun head hhead => ?_
    cases head with
    | unlinked scope => exact fun i link e hi _ => by cases hi
    | bound first scope binding =>
      refine (envsFrom_resolutionFrom site name rest first scope binding).weaken
        fun r hr i link e hi he => ?_
      obtain ⟨hbinding, henvs⟩ := hr
      rcases henvs i link e hi he with h | ⟨rfl, hart, hfirst⟩
      · exact .inl h
      · rw [hart, hbinding]
        exact (hhead e hfirst).imp (fun h => h) fun h => ⟨rfl, h⟩

/-! ## References in filters -/

variable (m) in
/-- The site is a reference in a filter on a segment of the reference at a path. Its first name is
looked up in the environment of the segment: it does not start with `$`, and is not one of a
parameter or of a definition. -/
structure Filters (site : Site) (outer : Path) (position : Nat) (name : String)
    (rest : List String) : Prop where
  kind : site.kind = .reference
  context : site.context = .refWhere
  base : site.base = some (.segment outer position)
  names : (m.segmentsOf site.holder).mapM m.segmentName = .ok (name :: rest)
  plain : isDollarName name = false
  notParam : m.doc.flag site.holder "param" = false
  notGlobal : m.doc.flag site.holder "global" = false

section

variable {outer : Path} {position : Nat} (h : m.Filters site outer position name rest)
include h

theorem Filters.resolveSite_eq (topology : Topology) : m.resolveSite site topology =
    m.baseHead site name .refTarget >>= m.resolutionFrom site name rest := by
  have hdollar : m.dollarHead site topology name = .answer none := by
    rw [dollarHead, h.plain]
    rfl
  have hhead : m.headOf site topology name (name :: rest).length =
      m.baseHead site name .refTarget := by
    rw [headOf, h.notParam, h.notGlobal, if_neg Bool.false_ne_true, if_neg Bool.false_ne_true,
      policyHead_eq, h.context]
    change m.dollarHead site topology name >>= _ = _
    rw [hdollar, answer_bind, headFrom, h.context]
    rfl
  rw [resolveSite, h.kind, ← hhead]
  exact resolveReference_eq h.names topology

/-- The last segment has the environment that the resolution says. The environment of another
segment is found from what it denotes. -/
theorem Filters.infers_baseEnv (hr : m.Denotes outer r) {link : Link}
    (hlink : r.links[position]? = some link) {e : NodeId} (he : link.env = some e) :
    m.Infers (m.baseEnv site) env ↔
      if position + 1 = r.links.length then some e = env else m.Infers (m.envOf link.art) env := by
  have hgo : ∀ r', m.Denotes outer r' ↔ r' = r :=
    fun r' => ⟨fun h => h.unique hr, fun heq => heq ▸ hr⟩
  unfold baseEnv
  rw [h.base]
  dsimp only
  rw [infers_bind_iff]
  simp only [infers_resolutionAt, hgo, exists_eq_left, hlink, he]
  split
  · exact infers_answer
  · exact Iff.rfl

end

theorem infers_baseHead (henv : m.Infers (m.baseEnv site) env) {scope : Scope} {head : Head} :
    m.Infers (m.baseHead site name scope) head ↔
      ∃ element, (env.bind fun env => m.doc.memberIn? env name) = some element ∧
      head = plainHead element scope := by
  have hgo : ∀ env', m.Infers (m.baseEnv site) env' ↔ env' = env :=
    fun env' => ⟨fun h => h.unique henv, fun heq => heq ▸ henv⟩
  unfold baseHead
  rw [infers_bind_iff]
  simp only [hgo, exists_eq_left]
  cases env with
  | none => simpa using not_infers_fail
  | some env =>
    rw [Option.bind_some]
    dsimp only
    cases m.doc.memberIn? env name with
    | none => simpa using not_infers_fail
    | some element =>
      simp only [Option.some.injEq, exists_eq_left']
      exact infers_answer.trans eq_comm

variable (m) in
/-- How the lookup of a name fails that the environment does not have. -/
def baseError (name : String) : Option NodeId → ModelError
  | none => .noBaseElements name
  | some env => .notFound name (m.placeText env)

theorem exec_baseHead_error {k : Lookups} (scope : Scope)
    (hex : exec ((m.baseEnv site).run k) s = (.ok env, t))
    (hnone : (env.bind fun env => m.doc.memberIn? env name) = none) :
    exec ((m.baseHead site name scope).run k) s = (.error (.model (m.baseError name env)), t) := by
  unfold baseHead
  rw [exec_run_bind_ok hex]
  cases env with
  | none => rfl
  | some env =>
    rw [Option.bind_some] at hnone
    dsimp only
    rw [hnone]
    rfl

variable (m) in
/-- The outcome is as expected; or a cycle is reported in its place, which is possible only where
the document has chains that are too long to be walked. -/
def OrOverlong {α : Type} (expected : Except ResolveError α → Prop)
    (outcome : Except ResolveError α) : Prop :=
  expected outcome ∨ ¬ m.ShortChains ∧ FailsWith .circularType outcome

theorem orOverlong_of_found {α : Type} {a : α} {outcome : Except ResolveError α}
    (hshort : m.ShortChains → outcome = .ok a) (hfound : FoundOrCircular a outcome) :
    m.OrOverlong (· = .ok a) outcome := by
  cases outcome with
  | ok b => exact .inl (congrArg _ hfound)
  | error e =>
    obtain ⟨error, rfl, hkind⟩ := hfound
    refine .inr ⟨fun h => ?_, error, rfl, hkind⟩
    cases hshort h

theorem exec_orOverlong {α : Type} {depth : Nat} {x : Inquiry α} {post : α → Prop} {a : α}
    (hx : x.Meets (m.rules m.IsCanonical).contract post) (hs : m.meanings.Ready depth s)
    (hclear : ∀ n, m.Clear n s) (h : m.Infers x a) :
    m.OrOverlong (· = .ok a) (exec (x.run (m.lookups depth)) s).1 := by
  refine orOverlong_of_found (fun hshort => ?_) ?_
  · obtain ⟨t, hex⟩ := exec_of_infers hshort hx hs hclear h
    exact congrArg Prod.fst hex
  · obtain ⟨n, hn⟩ := h
    exact (finds_lookups n depth).1.run (Theory.answers_lookups lawful_meanings depth)
      (governs_meanings.refines.meets hx) hn hs

theorem inspect_orOverlong (hs : m.meanings.Settled s) (hp : m.IsCanonical path)
    (h : m.Denotes path r) : m.OrOverlong (· = .ok r) (exec (m.inspect path) s).1 := by
  refine orOverlong_of_found (fun hshort => (inspect_eq_ok_iff hshort hs hp).mpr h) ?_
  obtain ⟨n, hn⟩ := h
  exact (finds_lookups n m.nesting).1.inspect path r s hp ⟨hs.agrees, room_le s⟩ hn

variable (m) in
/-- What a new session makes of a reference whose first segment denotes the element. -/
def onward (site : Site) (name : String) (rest : List String) (element : NodeId) :
    Except ResolveError Resolution :=
  (exec ((m.resolutionFrom site name rest (plainHead element .refTarget)).run m.ask) Cache.empty).1

variable (m) in
/-- How the inspection of a reference ends if its first name is looked up among the elements of an
environment. -/
structure LooksUp (site : Site) (name : String) (rest : List String) (env : Option NodeId)
    (outcome : Except ResolveError Resolution) : Prop where
  /-- What is resolved starts with the element of that name. -/
  starts : ∀ r, outcome = .ok r → ∃ element,
    (env.bind fun env => m.doc.memberIn? env name) = some element ∧
      r.scope = .refTarget ∧ r.links.head?.map Link.art = some element
  /-- If there is such an element, the inspection comes to what the other segments come to from
  there. -/
  goesOn : ∀ element, (env.bind fun env => m.doc.memberIn? env name) = some element →
    ∀ r, (outcome = .ok r → m.OrOverlong (· = .ok r) (m.onward site name rest element)) ∧
      (m.onward site name rest element = .ok r → m.OrOverlong (· = .ok r) outcome)
  unknown : ∀ e, env = some e → m.doc.memberIn? e name = none →
    m.OrOverlong (FailsWith .unknownName) outcome
  missing : env = none → m.OrOverlong (FailsWith .missingEnvironment) outcome

section

variable {outer : Path} {position : Nat} (h : m.Filters site outer position name rest)
  (hp : m.IsCanonical path)
  (hsite : m.siteAt? path = .ok (topology, site)) (ht : m.meanings.Settled t) {env : Option NodeId}
  (henv : m.Infers (m.baseEnv site) env)
include h hsite henv

theorem Filters.denotes_iff : m.Denotes path r ↔ ∃ element,
    (env.bind fun env => m.doc.memberIn? env name) = some element ∧
      m.Infers (m.resolutionFrom site name rest (plainHead element .refTarget)) r := by
  rw [denotes_iff_infers hsite, h.resolveSite_eq topology, infers_bind_iff]
  simp only [infers_baseHead henv]
  constructor
  · rintro ⟨_, ⟨element, helement, rfl⟩, hr⟩
    exact ⟨element, helement, hr⟩
  · rintro ⟨element, helement, hr⟩
    exact ⟨_, ⟨element, helement, rfl⟩, hr⟩

include hp ht

/-- A name that the environment does not have is looked up there in vain. Its reference has no
meaning, so that nothing keeps the session from finding the environment. -/
theorem Filters.inspect_error (hnone : (env.bind fun env => m.doc.memberIn? env name) = none) :
    m.OrOverlong (· = .error (m.annotate site (.model (m.baseError name env))))
      (exec (m.inspect path) t).1 := by
  have hmeaningless : ∀ r, ¬ m.Denotes path r := by
    intro r hr
    obtain ⟨element, helement, _⟩ := (h.denotes_iff hsite henv).mp hr
    rw [hnone] at helement
    cases helement
  have hunknown : ∀ n, (m.stage n).resolution path = none := by
    intro n
    cases hr : (m.stage n).resolution path with
    | none => rfl
    | some r => exact absurd ⟨n, hr⟩ (hmeaningless r)
  obtain ⟨u, _, hex, hagree, hfree, hbegun, hclear⟩ := exec_inspect_begins ht hp hsite
  have hnew : u.get? .resolution site.holder = none := by
    cases hget : u.get? .resolution site.holder with
    | none => rfl
    | some r =>
      exact absurd (denotes_of_resolves hp ⟨topology, site, hsite, hagree.kept _ _ hget⟩)
        (hmeaningless r)
  have hbase := exec_orOverlong (meets_baseEnv pathClosed_isCanonical hp hsite) hbegun
    (fun n => hclear n (hunknown n)) henv
  rcases hrun : exec ((m.baseEnv site).run (m.lookups (2 * m.doc.size + 1)))
    (begun u site.holder) with ⟨outcome, v⟩
  rw [hrun] at hbase
  -- the inspection fails as the first segment does
  have hfails : ∀ {e w}, exec ((m.baseHead site name .refTarget).run
      (m.lookups (2 * m.doc.size + 1)))
      (begun u site.holder) = (.error e, w) →
      (exec (m.inspect path) t).1 = .error (m.annotate site e) := by
    intro e w hhead
    have hresolve : exec ((m.resolveSite site topology).run (m.lookups (2 * m.doc.size + 1)))
        (begun u site.holder) = (.error e, w) := by
      rw [h.resolveSite_eq topology]
      exact exec_run_bind_error hhead _
    rw [hex, exec_inspectSite_error hnew hfree hresolve]
  rcases hbase with hok | ⟨hlong, error, herror, hkind⟩
  · obtain rfl : outcome = .ok env := hok
    exact .inl (hfails (exec_baseHead_error .refTarget hrun hnone))
  · obtain rfl : outcome = .error (.model error) := herror
    exact .inr ⟨hlong, _, hfails (exec_run_bind_error hrun _), hkind⟩

theorem Filters.looksUp (howned : m.OwnedAnswer env) :
    m.LooksUp site name rest env (exec (m.inspect path) t).1 where
  starts r hr := by
    obtain ⟨element, helement, hinfers⟩ :=
      (h.denotes_iff hsite henv).mp (denotes_of_inspect ht hp hr)
    have hstart := hinfers.meets
      (meets_known_of_anything (meets_resolutionFrom site name rest ⟨element, none⟩
        .refTarget none))
    exact ⟨element, helement, hstart.1, hstart.2.2.2⟩
  goesOn element helement r := by
    obtain ⟨env', rfl, hmember⟩ := Option.bind_eq_some_iff.mp helement
    have hlink : m.LinkOwned ⟨element, none⟩ :=
      ⟨(howned env' rfl).memberIn? hmember, ownedAnswer_none⟩
    have hmeets : (m.resolutionFrom site name rest (plainHead element .refTarget)).Meets
        (m.rules m.IsCanonical).contract fun _ => True :=
      Meets.bind (meets_followLinks name rest hlink) fun links hlinks =>
        Meets.bind (meets_closeLinks site _ hlinks.2) fun _ _ => trivial
    have hempty : m.meanings.Settled Cache.empty := settled_empty
    have hready : m.meanings.Ready m.nesting Cache.empty := ⟨hempty.agrees, room_le _⟩
    constructor
    · intro hr
      obtain ⟨other, hother, hinfers⟩ := (h.denotes_iff hsite henv).mp (denotes_of_inspect ht hp hr)
      obtain rfl : element = other := Option.some.inj (helement.symm.trans hother)
      exact exec_orOverlong hmeets hready (fun n => clear_of_settled n hempty) hinfers
    · intro hr
      exact inspect_orOverlong ht hp ((h.denotes_iff hsite henv).mpr ⟨element, helement,
        (infers_of_exec (Theory.answers_ask lawful_meanings) hmeets hready (Prod.ext hr rfl)).1.2⟩)
  unknown e he hmember := by
    refine (h.inspect_error hp hsite ht henv (by rw [he]; exact hmember)).imp_left fun heq => ?_
    rw [heq, he]
    exact failsWith_error.mpr rfl
  missing he := by
    refine (h.inspect_error hp hsite ht henv (by rw [he]; rfl)).imp_left fun heq => ?_
    rw [heq, he]
    exact failsWith_error.mpr rfl

end

/-! ## Filters and their segments -/

/-- The filter on a segment does not see the elements that the next segment sees: the segment is a
table alias for a sub-query, and another segment follows. -/
def HidesElements (topology : Topology) (r : Resolution) (position : Nat) : Prop :=
  position = 0 ∧ 1 < r.links.length ∧ topology.BindsSubquery r.env

/-- The reference that a filter belongs to stands in the same definition. -/
theorem siteAt?_outer {node : NodeId} (hsite : m.siteAt? (m.doc.pathOf node) = .ok (topology, site))
    {outer : Path} {position : Nat} (hbase : site.base = some (.segment outer position))
    (hr : m.Denotes outer r) : ∃ site', m.siteAt? outer = .ok (topology, site') := by
  obtain ⟨_, hd, _, _, ha, _⟩ := siteAt?_eq_ok hsite
  obtain ⟨outerNode, hw, hcanonical⟩ :=
    Site.base_of_pathOf (Document.owner?_of_pathDefinition hd) ha hbase
  obtain ⟨n, hn⟩ := hr
  cases n with
  | zero => cases hn
  | succ n =>
    rw [stage_resolution, resolutionBy] at hn
    split at hn
    · next topology' site' hsite' =>
      refine ⟨site', ?_⟩
      obtain rfl : outer = m.doc.pathOf outerNode := by
        rcases hcanonical with heq | ⟨_, heq⟩
        · cases heq
        · cases heq
          rfl
      obtain ⟨_, hd', _⟩ := siteAt?_eq_ok hsite'
      have hmain : site.main = site'.main := Option.some.inj
        ((owner?_of_within (Document.isDefinition_of_pathDefinition hd) hw).symm.trans
          (Document.owner?_of_pathDefinition hd'))
      rw [topology_eq_of_main hsite hsite' hmain]
      exact hsite'
    · cases hn

/-- A filter sees the environment of the segment that it decorates: the first name of a reference in
the filter is looked up among the elements of that environment. The one exception is a table alias
for a sub-query that is followed by another segment: there the filter sees what is found from the
node of the query, and not the result elements. Both references are inspected in sessions, not
necessarily the same one, that read paths as those of nodes. -/
theorem filter_sees_segment {m : Model} {s t : Cache} (hs : m.ReachableBy m.IsFaithful s)
    (ht : m.ReachableBy m.IsFaithful t) {path : Path} (hpath : m.IsFaithful path)
    {topology : Topology} {site : Site} (hsite : m.siteAt? path = .ok (topology, site))
    {outer : Path} {position : Nat} {name : String} {rest : List String}
    (h : m.Filters site outer position name rest) {r : Resolution}
    (hr : (exec (m.inspect outer) s).1 = .ok r) {link : Link}
    (hlink : r.links[position]? = some link) {e : NodeId} (he : link.env = some e) :
    (¬ HidesElements topology r position →
      m.LooksUp site name rest (some e) (exec (m.inspect path) t).1) ∧
    (HidesElements topology r position →
      ∀ env, (exec (m.navigationEnv link.art false) Cache.empty).1 = .ok env →
        m.LooksUp site name rest env (exec (m.inspect path) t).1) := by
  obtain ⟨node, hnode⟩ := hpath topology site hsite
  have hcanonical : m.IsCanonical outer :=
    pathClosed_isCanonical.base (m.doc.pathOf node) topology site _ ⟨node, rfl⟩ hnode h.base
  have hdenotes := denotes_of_inspect (settled_of_faithful hs) hcanonical hr
  obtain ⟨site', hsite'⟩ := siteAt?_outer hnode h.base hdenotes
  have henvs : m.EnvsTrue topology r :=
    ((denotes_iff_infers hsite').mp hdenotes).meets (envsTrue_resolveSite hsite')
  have howned : m.LinkOwned link := by
    obtain ⟨_, _, _, _, _, _, _, hres⟩ := resolved_of_resolves
      ((governs_rules pathClosed_isCanonical).resolves (reachableBy_canonical hs) hcanonical hr)
    exact hres.links link (List.mem_of_getElem? hlink)
  have hlt : position < r.links.length := (List.getElem?_eq_some_iff.mp hlink).1
  rw [exec_inspect_congr (settled_of_faithful ht) hsite hnode]
  constructor
  · intro hsees
    refine h.looksUp ⟨node, rfl⟩ hnode (settled_of_faithful ht)
      ((h.infers_baseEnv hdenotes hlink he).mpr ?_) (ownedAnswer_some (howned.2 e he))
    split
    · rfl
    · next hlast =>
      refine (henvs position link e hlink he).resolve_right fun hexempt =>
        hsees ⟨hexempt.1, ?_, hexempt.2⟩
      obtain rfl := hexempt.1
      omega
  · intro hhides env henv
    obtain ⟨⟨⟨_, hanswer⟩, hinfers⟩, _⟩ := infers_of_exec (Theory.answers_ask lawful_meanings)
      (meets_envOf (.inl howned.1) false) ⟨settled_empty.agrees, room_le _⟩ (Prod.ext henv rfl)
    refine h.looksUp ⟨node, rfl⟩ hnode (settled_of_faithful ht)
      ((h.infers_baseEnv hdenotes hlink he).mpr ?_) hanswer
    rw [if_neg]
    · exact hinfers
    · have hmore := hhides.2.1
      rw [hhides.1]
      omega

/-! ### Filters on an association and on a sub-query -/

def selectionModel : Model :=
  ⟨.ofDefinitions [
    ("E", .object [("elements", .object
      [("a", .object []), ("f", .object [("target", .string "E")]),
      ("g", .object [("value", .object [("ref", .array [
        .object [("id", .string "f"), ("where", .array [.object [("ref", .array [.string "a"])]])],
        .string "a"])])])])]),
    ("V", .object [("query", .object [("SELECT", .object [
      ("from", .object [("SELECT", .object [("from", .object [("ref", .array [.string "E"])]),
          ("columns", .array [.object [("ref", .array [.string "a"])]]),
          ("elements", .object [("a", .object [])])]),
        ("as", .string "s")]),
      ("columns", .array [.object [("ref", .array [
        .object [("id", .string "s"), ("where", .array [.object [("ref", .array [.string "a"])]])],
        .string "a"])]])])])])], {}⟩

/-- The value of `g`, which goes along the association. -/
def selectionValue : Resolution :=
  { links := [⟨5, some 2⟩, ⟨4, none⟩], art := some 4, parent := some 7, scope := .parent,
    env := none, context := .calculated }

/-- The name in the filter on the association. -/
def selectionValueSite : Site :=
  { kind := .reference, holder := 13, context := .refWhere, main := 2, query := none,
    member := some 7,
    memberParent := some 2, base := some (.segment (selectionModel.doc.pathOf 8) 0) }

/-- The column of the view, which goes along the sub-query. -/
def selectionColumn : Resolution :=
  { links := [⟨20, some 21⟩, ⟨30, none⟩], art := some 30, parent := some 17, scope := .tableAlias,
    env := some (.tableAlias "s" 1), context := .columns }

/-- The name in the filter on the sub-query. -/
def selectionColumnSite : Site :=
  { kind := .reference, holder := 38, context := .refWhere, main := 17, query := some 0,
    member := none, memberParent := none, base := some (.segment (selectionModel.doc.pathOf 33) 0) }

def selectionScope : QueryScope :=
  { number := 1, node := 18, select := 19, aliases := [("s", .query 20 1)], elementsOwner := none,
    next := none }

def selectionSubquery : QueryScope :=
  { number := 2, node := 20, select := 21, aliases := [("E", .path 22)], elementsOwner := some 21,
    next := some 0 }

def selectionTopology : Topology :=
  ⟨17, [selectionScope, selectionSubquery], [(21, 1), (20, 1), (19, 0), (18, 0)]⟩

/-- The session that has inspected the value. -/
def selectionSession : Cache :=
  (exec (selectionModel.answer (.inspect (selectionModel.doc.pathOf 8))) Cache.empty).2

theorem reachableBy_selectionSession :
    selectionModel.ReachableBy selectionModel.IsFaithful selectionSession :=
  .after (.inspect (selectionModel.doc.pathOf 8)) (isFaithful_pathOf selectionModel 8) .new

theorem filters_selectionValueSite :
    selectionModel.Filters selectionValueSite (selectionModel.doc.pathOf 8) 0 "a" [] :=
  ⟨rfl, rfl, rfl, eq_ok_of_toOption (by decide +kernel), by decide, by decide +kernel,
    by decide +kernel⟩

theorem filters_selectionColumnSite :
    selectionModel.Filters selectionColumnSite (selectionModel.doc.pathOf 33) 0 "a" [] :=
  ⟨rfl, rfl, rfl, eq_ok_of_toOption (by decide +kernel), by decide, by decide +kernel,
    by decide +kernel⟩

theorem hidesElements_selectionColumn : HidesElements selectionTopology selectionColumn 0 :=
  ⟨rfl, by decide, "s", selectionScope, 20, 1, rfl, rfl, rfl⟩

/-- The filter on the association sees the elements of its target. The one on the sub-query sees
none. -/
theorem selection_filters :
    (exec (selectionModel.inspect (selectionModel.doc.pathOf 8)) Cache.empty).1 =
      .ok selectionValue ∧
    selectionModel.LooksUp selectionValueSite "a" [] (some 2)
      (exec (selectionModel.inspect (selectionModel.doc.pathOf 13)) selectionSession).1 ∧
    (exec (selectionModel.inspect (selectionModel.doc.pathOf 33)) selectionSession).1 =
      .ok selectionColumn ∧
    selectionModel.LooksUp selectionColumnSite "a" [] none
      (exec (selectionModel.inspect (selectionModel.doc.pathOf 38)) Cache.empty).1 := by
  have hvalue : (exec (selectionModel.inspect (selectionModel.doc.pathOf 8)) Cache.empty).1 =
      .ok selectionValue := eq_ok_of_toOption (by decide +kernel)
  have hcolumn : (exec (selectionModel.inspect (selectionModel.doc.pathOf 33)) selectionSession).1 =
      .ok selectionColumn := eq_ok_of_toOption (by decide +kernel)
  have hvalueSite : selectionModel.siteAt? (selectionModel.doc.pathOf 13) =
      .ok (⟨2, [], []⟩, selectionValueSite) := eq_ok_of_toOption (by decide +kernel)
  have hcolumnSite : selectionModel.siteAt? (selectionModel.doc.pathOf 38) =
      .ok (selectionTopology, selectionColumnSite) := eq_ok_of_toOption (by decide +kernel)
  have hsees : ¬ HidesElements ⟨2, [], []⟩ selectionValue 0 := by
    rintro ⟨_, _, _, _, _, _, hbinding, _⟩
    cases hbinding
  exact ⟨hvalue,
    (filter_sees_segment .new reachableBy_selectionSession (isFaithful_pathOf _ 13) hvalueSite
      filters_selectionValueSite hvalue rfl rfl).1 hsees,
    hcolumn,
    (filter_sees_segment reachableBy_selectionSession .new (isFaithful_pathOf _ 38) hcolumnSite
      filters_selectionColumnSite hcolumn rfl rfl).2 hidesElements_selectionColumn none
      (eq_ok_of_toOption (by decide +kernel))⟩

/-- A sub-query has an element, which the segment after it denotes, but the filter on the sub-query
does not see it. -/
theorem subquery_filter_misses_elements :
    (exec (selectionModel.inspect (selectionModel.doc.pathOf 33)) Cache.empty).1 =
      .ok selectionColumn ∧
    selectionColumn.links[0]? = some ⟨20, some 21⟩ ∧
    selectionModel.Filters selectionColumnSite (selectionModel.doc.pathOf 33) 0 "a" [] ∧
    selectionModel.doc.memberIn? 21 "a" = some 30 ∧
    FailsWith .missingEnvironment
      (exec (selectionModel.inspect (selectionModel.doc.pathOf 38)) Cache.empty).1 :=
  ⟨eq_ok_of_toOption (by decide +kernel), rfl, filters_selectionColumnSite, by decide +kernel,
    by decide +kernel⟩

end Model

end SchemaRefs
