import SchemaRefs.Proofs.Requests

/-!
# The nearest query decides

The first name of a reference inside a query is looked up in the queries around it. Which queries
these are can be read off the document: they are the numbered `SELECT` bodies above the reference,
innermost first (`Document.selectsAbove`). So can what they bind: a `SELECT` has mixins
(`Document.mixin?`), and its sources have aliases (`Document.aliasesIn`).

* `nearestFrom_eq_findSome?`: the search along the enclosing scopes of a topology is a search
  through the `SELECT` bodies above a node;
* `nearest_select_wins`: the nearest of them that binds the name decides what a resolution is, and
  between a mixin and an alias of one `SELECT` the context decides.
-/

namespace SchemaRefs

open Skeleton (Encloses)

namespace Document

variable (doc : Document) {i : Nat} {node outer : NodeId} {scope : QueryScope}

/-- The scopes whose `SELECT` bodies lie above a node, innermost first. -/
def selectsAbove (topology : Topology) (node : NodeId) : List QueryScope :=
  match _h : doc.container? node with
  | none => []
  | some outer =>
    (topology.queries.find? fun scope => scope.select == outer).toList ++
      selectsAbove topology outer
termination_by node
decreasing_by exact container?_lt _h

/-- A mixin of a `SELECT`. -/
def mixin? (select : NodeId) (name : String) : Option NodeId :=
  (doc.prop? select "mixin").bind fun mixins => doc.prop? mixins name

/-- The table aliases of the sources of a `SELECT`. A sub-query without an alias has one made of its
number. -/
def aliasesIn (topology : Topology) (select : NodeId) : List String :=
  (doc.selectSources select).filterMap fun
    | .path _ name => some name
    | .query item => (topology.queryOf? item).map (doc.subqueryAlias item)
    | .condition _ | .fault _ _ => none

variable {doc} {definition : NodeId} {topology : Topology} {links : List TopologyLink}

/-! ## The bodies above a node -/

theorem selectsAbove_of_container? (h : doc.container? node = some outer) :
    doc.selectsAbove topology node =
      (topology.queries.find? fun scope => scope.select == outer).toList ++
        doc.selectsAbove topology outer := by
  rw [selectsAbove]
  split
  · next hnone =>
    rw [h] at hnone
    cases hnone
  · next outer' hsome =>
    rw [h] at hsome
    cases hsome
    rfl

theorem selectsAbove_root (h : doc.container? node = none) :
    doc.selectsAbove topology node = [] := by
  rw [selectsAbove]
  split
  · rfl
  · next outer hsome =>
    rw [h] at hsome
    cases hsome

theorem exists_scope_of_mem_selectsAbove
    (h : scope ∈ doc.selectsAbove topology node) : ∃ i, topology.scope? i = some scope := by
  induction node using Nat.strongRecOn with
  | ind node ih =>
    cases hc : doc.container? node with
    | none =>
      rw [selectsAbove_root hc] at h
      cases h
    | some outer =>
      rw [selectsAbove_of_container? hc] at h
      rcases List.mem_append.mp h with h | h
      · have hf := Option.mem_toList.mp h
        exact List.mem_iff_getElem?.mp (List.mem_of_find?_eq_some hf)
      · exact ih outer (container?_lt hc) h

theorem mem_shapes_of_scope (hs : topology.scope? i = some scope) :
    topology.skeleton.shapes[i]? = some scope.shape := by
  rw [getElem?_shapes, hs, Option.map_some]

/-- A `SELECT` body belongs to one scope. -/
theorem Built.find_select (hb : doc.Built definition topology links)
    (hs : topology.scope? i = some scope) :
    (topology.queries.find? fun other => other.select == scope.select) = some scope := by
  have hmem : scope ∈ topology.queries := List.mem_of_getElem? hs
  cases hf : topology.queries.find? fun other => other.select == scope.select with
  | none =>
    have := List.find?_eq_none.mp hf scope hmem
    simp at this
  | some found =>
    have heq : found.select = scope.select := by
      simpa using List.find?_some hf
    obtain ⟨j, hj⟩ := List.mem_iff_getElem?.mp (List.mem_of_find?_eq_some hf)
    have hfound := (hb.mem_of_scope hj).2
    have hscope := (hb.mem_of_scope hs).2
    rw [heq] at hfound
    have hij : j = i := hb.sound.functional _ _ _ hfound hscope
    have hs : topology.queries[i]? = some scope := hs
    rw [hij, hs] at hj
    exact hj.symm

theorem encloses_of_container?
    (hc : doc.container? node = some scope.select) : Encloses doc scope.shape node := by
  refine ⟨within_of_container? hc, fun heq => ?_⟩
  have hlt := container?_lt hc
  have heq : scope.select = node := heq
  rw [heq] at hlt
  exact Nat.lt_irrefl _ hlt

/-- Going up from a node to its container, the bodies around it stay the same, except for the
container. -/
theorem encloses_container_iff {shape : ScopeShape}
    (hc : doc.container? node = some outer) (hne : shape.select ≠ outer) :
    Encloses doc shape outer ↔ Encloses doc shape node := by
  constructor
  · intro ⟨hw, _⟩
    refine ⟨.step hc hw, fun heq => ?_⟩
    have hle := hw.le
    have hlt := container?_lt hc
    rw [heq] at hle
    exact Nat.lt_irrefl _ (Nat.lt_of_lt_of_le hlt hle)
  · intro ⟨hw, hn⟩
    exact ⟨hw.container hn hc, hne⟩

theorem find_select_eq_none (h : ∀ scope ∈ topology.queries, scope.select ≠ outer) :
    (topology.queries.find? fun scope => scope.select == outer) = none := by
  refine List.find?_eq_none.mpr fun scope hm => ?_
  simpa using h scope hm

theorem selectsAbove_of_innermost_none
    (h : topology.skeleton.Innermost doc node none) : doc.selectsAbove topology node = [] := by
  induction node using Nat.strongRecOn with
  | ind node ih =>
    cases hc : doc.container? node with
    | none => exact selectsAbove_root hc
    | some outer =>
      have hne : ∀ scope ∈ topology.queries, scope.select ≠ outer := by
        intro scope hm heq
        rw [← heq] at hc
        exact h scope.shape (List.mem_map.mpr ⟨scope, hm, rfl⟩) (encloses_of_container? hc)
      have hup : topology.skeleton.Innermost doc outer none := by
        intro shape hm henc
        obtain ⟨scope, hscope, rfl⟩ := List.mem_map.mp hm
        exact h _ hm ((encloses_container_iff hc (hne scope hscope)).mp henc)
      rw [selectsAbove_of_container? hc, find_select_eq_none hne, ih outer (container?_lt hc) hup]
      rfl

/-- The innermost scope around a node comes first; the others lie above its body. -/
theorem Built.selectsAbove_of_innermost (hb : doc.Built definition topology links)
    (hs : topology.scope? i = some scope) (h : topology.skeleton.Innermost doc node (some i)) :
    doc.selectsAbove topology node = scope :: doc.selectsAbove topology scope.select := by
  obtain ⟨shape, hshape, henc, hall⟩ := h
  rw [mem_shapes_of_scope hs] at hshape
  cases hshape
  induction node using Nat.strongRecOn with
  | ind node ih =>
    obtain ⟨hw, hn⟩ := henc
    cases hw with
    | refl => exact absurd rfl hn
    | @step _ outer hc hw =>
      rw [selectsAbove_of_container? hc]
      by_cases heq : scope.select = outer
      · rw [← heq, hb.find_select hs]
        rfl
      · -- no body lies between the node and the one of the scope
        have hne : ∀ other ∈ topology.queries, other.select ≠ outer := by
          intro other hm ho
          have hother : Encloses doc other.shape node := encloses_of_container? (ho ▸ hc)
          have hin : doc.Within other.select scope.select :=
            hall other.shape (List.mem_map.mpr ⟨other, hm, rfl⟩) hother
          rw [ho] at hin
          exact heq (hw.antisymm hin)
        rw [find_select_eq_none hne]
        refine ih outer (container?_lt hc) ⟨hw, heq⟩ fun shape hm henc => ?_
        obtain ⟨other, hother, rfl⟩ := List.mem_map.mp hm
        exact hall _ hm ((encloses_container_iff hc (hne other hother)).mp henc)

/-! ## What a body binds -/

theorem Built.mixin?_eq (hb : doc.Built definition topology links)
    (hs : topology.scope? i = some scope) (name : String) :
    Table.get? scope.mixins name = doc.mixin? scope.select name :=
  (hb.complete i scope hs).mixins name

/-- The table aliases of a scope are those of its sources. -/
theorem Built.isSome_alias_iff (hb : doc.Built definition topology links)
    (hs : topology.scope? i = some scope) (name : String) :
    (Table.get? scope.aliases name).isSome = true ↔ name ∈ doc.aliasesIn topology scope.select := by
  have haliases := (hb.complete i scope hs).aliases
  constructor
  · intro h
    obtain ⟨binding, hbinding⟩ := Option.isSome_iff_exists.mp h
    obtain ⟨leaf, hleaf, hbinds⟩ := haliases.sound name binding (Table.mem_of_get? hbinding)
    refine List.mem_filterMap.mpr ⟨leaf, hleaf, ?_⟩
    cases leaf with
    | path item tableAlias => exact congrArg some hbinds.1.symm
    | query item =>
      obtain ⟨index, hindex, hname, _⟩ := hbinds
      dsimp only
      rw [hb.queryOf?_eq_some_iff.mpr hindex, Option.map_some, hname]
    | condition expr => exact hbinds.elim
    | fault item fault => exact hbinds.elim
  · intro h
    obtain ⟨leaf, hleaf, heq⟩ := List.mem_filterMap.mp h
    cases leaf with
    | path item tableAlias =>
      cases heq
      exact haliases.paths item name hleaf
    | query item =>
      obtain ⟨index, hindex, hsome⟩ := haliases.queries item hleaf
      dsimp only at heq
      rw [hb.queryOf?_eq_some_iff.mpr hindex, Option.map_some] at heq
      cases heq
      exact hsome
    | condition expr => cases heq
    | fault item fault => cases heq

end Document

namespace Model

open CacheM

variable {m : Model} {topology : Topology} {links : List TopologyLink} {definition : NodeId}
  {path : Path} {site : Site}

/-! ## The search -/

/-- Searching the enclosing scopes is searching the bodies above a node. -/
theorem nearestFrom_eq_findSome? (hb : m.doc.Built definition topology links) (name : String)
    (mixinsFirst visible : Bool) (steps : Nat) {index : Option Nat} {node : NodeId}
    (hc : topology.skeleton.ChainWithin steps index)
    (hi : topology.skeleton.Innermost m.doc node index) :
    nearestFrom topology name mixinsFirst visible steps index =
      (m.doc.selectsAbove topology node).findSome? (boundIn name mixinsFirst visible) := by
  induction steps generalizing index node with
  | zero =>
    cases index with
    | none =>
      rw [Document.selectsAbove_of_innermost_none hi]
      rfl
    | some i => exact hc.elim
  | succ steps ih =>
    cases index with
    | none =>
      rw [Document.selectsAbove_of_innermost_none hi]
      rfl
    | some i =>
      obtain ⟨shape, hshape, hchain⟩ := hc
      rw [Document.getElem?_shapes] at hshape
      obtain ⟨scope, hs, rfl⟩ := Option.map_eq_some_iff.mp hshape
      have hchain : topology.skeleton.ChainWithin steps scope.next := hchain
      have hnext : topology.skeleton.Innermost m.doc scope.select scope.next := by
        obtain ⟨scope', hs', _, hin⟩ := hb.scope_of_mem (hb.mem_of_scope hs).2
        rw [hs] at hs'
        cases hs'
        exact hin
      rw [nearestFrom, hs, Option.bind_some, ih hchain hnext, hb.selectsAbove_of_innermost hs hi,
        List.findSome?_cons]
      cases boundIn name mixinsFirst visible scope <;> rfl

variable (m) in
/-- The reference lies inside the `SELECT` body of the innermost query around it. -/
def InSelect (topology : Topology) (holder : NodeId) : Prop :=
  ∀ query index scope, Walk.NearestQuery m.doc topology holder query index →
    topology.scope? index = some scope → m.doc.Within scope.select holder

/-- A reference is no query node. -/
theorem holder_not_query (hsite : m.siteAt? path = .ok (topology, site))
    (hk : site.kind = .reference) (i : Nat) : (site.holder, i) ∉ topology.queryTable := by
  obtain ⟨links, hd, _, hb, ha, _⟩ := siteAt?_eq_ok hsite
  obtain ⟨walk, hwalk, heq⟩ := Site.here_of_analyze
    (P := fun walk => (∃ i, (walk.node, i) ∈ topology.queryTable) → walk.context = none) hd ha
    (fun _ => rfl) fun walk step next _ _ ⟨j, hj⟩ => by
      have hq := hb.queryOf?_eq_some_iff.mpr hj
      have hnode : (walk.advance m.doc topology site.main step next).node = next := rfl
      rw [hnode] at hq
      unfold Walk.advance
      dsimp only
      rw [hq]
      rfl
  intro hi
  have hctx := hwalk ⟨i, by rw [heq] at hi; exact hi⟩
  rw [heq] at hk
  unfold Walk.here Walk.kindHere at hk
  rw [hctx] at hk
  dsimp only [Walk.site] at hk
  split at hk <;> cases hk

/-- Where no query lies around a node, no body does. -/
theorem innermost_of_noQuery (hb : m.doc.Built definition topology links) {holder : NodeId}
    (hno : Walk.NoQuery m.doc topology holder) : topology.skeleton.Innermost m.doc holder none := by
  intro shape hm henc
  obtain ⟨i, hi⟩ := hb.sound.select_mem hm
  exact hno _ i hi henc.1

section

variable (hb : m.doc.Built definition topology links) {holder query : NodeId} {i : Nat}
  {scope : QueryScope} (hnear : Walk.NearestQuery m.doc topology holder query i)
  (hholder : ∀ j, (holder, j) ∉ topology.queryTable) (hs : topology.scope? i = some scope)
include hb hnear hholder hs

/-- If the nearest query node is the body of a `SET`, no `SELECT` body lies between it and the
reference. -/
theorem innermost_of_set (hset : m.doc.step? query = some (.key "SET")) :
    topology.skeleton.Innermost m.doc holder scope.next := by
  obtain ⟨scope', hs', _, hinner⟩ := hb.scope_of_mem hnear.mem
  rw [hs] at hs'
  cases hs'
  refine hinner.congr fun shape hm => ?_
  obtain ⟨j, hj⟩ := hb.sound.select_mem hm
  constructor
  · intro henc
    refine ⟨hnear.innermost _ j hj henc.1, fun heq => ?_⟩
    rw [← heq] at hset
    rcases hb.sound.body shape hm with h | h <;> rw [hset] at h <;> exact absurd h (by decide)
  · intro henc
    refine ⟨henc.1.trans hnear.within, fun heq => ?_⟩
    rw [heq] at hj
    exact hholder j hj

/-- If the reference lies in the body of the nearest query, this is the innermost one. -/
theorem innermost_of_within (hbody : m.doc.Within scope.select holder) :
    topology.skeleton.Innermost m.doc holder (some i) := by
  obtain ⟨scope', hs', hw, _⟩ := hb.scope_of_mem hnear.mem
  rw [hs] at hs'
  cases hs'
  have hmem := (hb.mem_of_scope hs).2
  have heq : query = scope.select := hw.antisymm (hnear.innermost _ i hmem hbody)
  refine ⟨scope.shape, Document.mem_shapes_of_scope hs, ⟨hbody, fun hh => ?_⟩,
    fun other hm henc => ?_⟩
  · have hh : scope.select = holder := hh
    rw [hh] at hmem
    exact hholder i hmem
  · obtain ⟨j, hj⟩ := hb.sound.select_mem hm
    have hto : m.doc.Within other.select query := hnear.innermost _ j hj henc.1
    rw [heq] at hto
    exact hto

end

/-- The search starts at the innermost body above the reference. -/
theorem innermost_lexicalStart (hsite : m.siteAt? path = .ok (topology, site))
    (hk : site.kind = .reference) (hlex : site.context.isLexical = true)
    (hin : site.context.policy.lexical ≠ .enclosing → m.InSelect topology site.holder) :
    topology.skeleton.Innermost m.doc site.holder
      (lexicalStart? site topology site.context.policy.lexical) := by
  obtain ⟨links, _, _, hb, _, hl⟩ := siteAt?_eq_ok hsite
  have hholder := holder_not_query hsite hk
  cases hl.query with
  | published _ _ hlex' =>
    rw [hlex] at hlex'
    cases hlex'
  | outside hnone hno =>
    have hstart : lexicalStart? site topology site.context.policy.lexical = none := by
      unfold lexicalStart? siteScope?
      split
      · rw [hnone]
        rfl
      · exact hnone
    rw [hstart]
    exact innermost_of_noQuery hb hno
  | @inside query i hquery hnear hset =>
    obtain ⟨scope, hs, _⟩ := hb.scope_of_mem hnear.mem
    by_cases hen : site.context.policy.lexical = .enclosing
    · have hstart : lexicalStart? site topology site.context.policy.lexical = scope.next := by
        rw [hen]
        simp [lexicalStart?, siteScope?, hquery, hs]
      rw [hstart]
      exact innermost_of_set hb hnear hholder hs (hset hen)
    · have hstart : lexicalStart? site topology site.context.policy.lexical = some i := by
        unfold lexicalStart?
        split
        · next h => exact absurd h hen
        · exact hquery
      rw [hstart]
      exact innermost_of_within hb hnear hholder hs (hin hen query i scope hnear hs)

/-- What a reference finds in the queries around it is what the nearest body above it binds. -/
theorem nearest_eq_findSome? (hsite : m.siteAt? path = .ok (topology, site))
    (hk : site.kind = .reference) (hlex : site.context.isLexical = true)
    (hin : site.context.policy.lexical ≠ .enclosing → m.InSelect topology site.holder)
    (name : String) (segments : Nat) :
    m.nearest site topology name segments =
      (m.doc.selectsAbove topology site.holder).findSome?
        (boundIn name (site.context.policy.lexical == .fullMixinsFirst)
          (m.aliasesVisible site segments)) := by
  obtain ⟨links, _, _, hb, _, _⟩ := siteAt?_eq_ok hsite
  have hchain := (chainWithin_lexicalStart hsite site.context.policy.lexical).mono
    (show maxQueryNesting + 1 ≤ maxScopeWalk by decide)
  exact nearestFrom_eq_findSome? hb name _ _ _ hchain (innermost_lexicalStart hsite hk hlex hin)

/-! ## Resolutions -/

variable (m) in
/-- A `SELECT` has a mixin of this name. -/
def HasMixin (select : NodeId) (name : String) : Prop :=
  (m.doc.mixin? select name).isSome = true

variable (m) in
/-- A source of the `SELECT` has the name as its alias, and the reference may be a path that starts
with an alias. -/
def HasAlias (topology : Topology) (holder select : NodeId) (name : String) : Prop :=
  (1 < (m.segmentsOf holder).length ∨ m.doc.hasProp holder "expand" = true ∨
    m.doc.hasProp holder "inline" = true) ∧ name ∈ m.doc.aliasesIn topology select

theorem aliasesVisible_iff {segments : Nat} :
    m.aliasesVisible site segments = true ↔ 1 < segments ∨
    m.doc.hasProp site.holder "expand" = true ∨
      m.doc.hasProp site.holder "inline" = true := by
  simp [aliasesVisible, or_assoc]

section

variable (site : Site) {scope : QueryScope} {i : Nat}

theorem visibleAlias_iff (hb : m.doc.Built definition topology links)
    (hs : topology.scope? i = some scope) (name : String) :
    ((if m.aliasesVisible site (m.segmentsOf site.holder).length then Table.get? scope.aliases name
      else none).isSome = true) ↔ m.HasAlias topology site.holder scope.select name := by
  unfold HasAlias
  rw [← aliasesVisible_iff, ← hb.isSome_alias_iff hs]
  split
  · next h => simp [h]
  · next h => simp [h]

/-- What a scope binds a name to is what its body binds it to. -/
theorem boundIn_eq (hb : m.doc.Built definition topology links)
    (hs : topology.scope? i = some scope) (name : String) (mixinsFirst : Bool) :
    (¬ m.HasMixin scope.select name → ¬ m.HasAlias topology site.holder scope.select name →
      boundIn name mixinsFirst (m.aliasesVisible site (m.segmentsOf site.holder).length)
        scope = none) ∧
    (m.HasMixin scope.select name →
      (¬ m.HasAlias topology site.holder scope.select name ∨ mixinsFirst = true) →
      boundIn name mixinsFirst (m.aliasesVisible site (m.segmentsOf site.holder).length) scope =
        some (.mixin, .mixin name scope.number)) ∧
    (m.HasAlias topology site.holder scope.select name →
      (¬ m.HasMixin scope.select name ∨ mixinsFirst = false) →
      boundIn name mixinsFirst (m.aliasesVisible site (m.segmentsOf site.holder).length) scope =
        some (.tableAlias, .tableAlias name scope.number)) := by
  rw [← visibleAlias_iff site hb hs, HasMixin, ← hb.mixin?_eq hs]
  unfold boundIn
  generalize Table.get? scope.mixins name = mixin
  generalize (if m.aliasesVisible site (m.segmentsOf site.holder).length then
    Table.get? scope.aliases name else none) = tableAlias
  cases mixin <;> cases tableAlias <;> cases mixinsFirst <;> simp

end

/-- The first body that binds the name decides. -/
theorem Follows.first {scopes inner outer : List QueryScope} {scope : QueryScope}
    {f : QueryScope → Option (Scope × Binding)} {found : Scope × Binding} {result : Scope}
    {env : Option Binding} (h : Follows (scopes.findSome? f) result env)
    (heq : scopes = inner ++ scope :: outer) (hinner : ∀ other ∈ inner, f other = none)
    (hf : f scope = some found) : result = found.1 ∧ env = some found.2 := by
  have hfind : scopes.findSome? f = some found := by
    rw [heq, List.findSome?_append, List.findSome?_eq_none_iff.mpr hinner, List.findSome?_cons, hf]
    rfl
  rw [hfind] at h
  exact h

theorem isLexical_of_mem {context : Context}
    (h : context ∈ [Context.columns, .filter, .having, .groupBy, .orderBy, .orderByExpr,
      .mixinOn, .joinOn] ∨ context ∈ [Context.orderBySet, .orderBySetExpr]) :
    context.isLexical = true := by
  revert h
  cases context <;> decide

theorem mem_of_enclosing {context : Context} (h : context ∈ [Context.orderBySet, .orderBySetExpr]) :
    context.policy.lexical = .enclosing := by
  revert h
  cases context <;> decide

theorem mixinsFirst_iff (context : Context) :
    (context.policy.lexical == .fullMixinsFirst) = true ↔
      context ∈ [Context.filter, .joinOn, .mixinOn] := by
  cases context <;> decide

/-- A resolution in one of the contexts of queries comes from a site of that context, at the same
reference. -/
theorem lexical_of_inspect {s : Cache} {r : Resolution} (h : m.Reachable s)
    (hr : (exec (m.inspect path) s).1 = .ok r) (hsite : m.siteAt? path = .ok (topology, site))
    (hlex : r.context.isLexical = true) :
    ∃ path' site', m.siteAt? path' = .ok (topology, site') ∧ site'.holder = site.holder ∧
      site'.kind = .reference ∧ m.Resolved topology site' r := by
  obtain ⟨topology₁, site₁, topology', site', hsite₁, ⟨path', _, hsite'⟩, hholder, hres⟩ :=
    resolved_of_resolves (governs_all.resolves h trivial hr)
  rw [hsite] at hsite₁
  cases hsite₁
  cases topology_eq_of_main hsite' hsite (main_eq_of_holder hsite' hsite hholder)
  refine ⟨path', site', hsite', hholder, ?_, hres⟩
  obtain ⟨_, _, _, _, _, hl⟩ := siteAt?_eq_ok hsite'
  apply Classical.byContradiction
  intro hk
  rw [hres.context, hl.context hk] at hlex
  cases hlex

/-- A reference is resolved in the sources of a query, in its conditions, in its columns or in its
sort order. The `SELECT` bodies above it are searched for its first name, from the inside out. The
first that has a mixin or an alias of this name binds it; the mixin goes first in conditions on
rows, elsewhere the alias does. If no body binds the name, then the resolution is neither an alias
nor a mixin. -/
theorem nearest_select_wins {m : Model} {s : Cache} {path : Path} {topology : Topology}
    {site : Site} {r : Resolution} (h : m.Reachable s) (hr : (exec (m.inspect path) s).1 = .ok r)
    (hsite : m.siteAt? path = .ok (topology, site))
    (hparam : m.doc.flag site.holder "param" = false)
    (hglobal : m.doc.flag site.holder "global" = false)
    (hcontext : r.context ∈ [Context.columns, .filter, .having, .groupBy, .orderBy, .orderByExpr,
      .mixinOn, .joinOn] ∧ m.InSelect topology site.holder ∨
      r.context ∈ [Context.orderBySet, .orderBySetExpr]) :
    ∃ name, m.firstName? site = some name ∧
      (∀ inner scope outer, m.doc.selectsAbove topology site.holder = inner ++ scope :: outer →
        (∀ other ∈ inner, ¬ m.HasMixin other.select name ∧
          ¬ m.HasAlias topology site.holder other.select name) →
        (m.HasMixin scope.select name →
          ¬ m.HasAlias topology site.holder scope.select name ∨
            r.context ∈ [Context.filter, .joinOn, .mixinOn] →
          r.scope = .mixin ∧ r.env = some (.mixin name scope.number)) ∧
        (m.HasAlias topology site.holder scope.select name →
          ¬ m.HasMixin scope.select name ∨ r.context ∉ [Context.filter, .joinOn, .mixinOn] →
          r.scope = .tableAlias ∧ r.env = some (.tableAlias name scope.number))) ∧
      ((∀ scope ∈ m.doc.selectsAbove topology site.holder, ¬ m.HasMixin scope.select name ∧
          ¬ m.HasAlias topology site.holder scope.select name) →
        r.scope ≠ .tableAlias ∧ r.scope ≠ .mixin) := by
  have hlex : r.context.isLexical = true := isLexical_of_mem (hcontext.imp_left And.left)
  obtain ⟨path', site', hsite', hholder, hk, hres⟩ := lexical_of_inspect h hr hsite hlex
  obtain ⟨links, _, _, hb, _, _⟩ := siteAt?_eq_ok hsite'
  have hin : site'.context.policy.lexical ≠ .enclosing → m.InSelect topology site'.holder := by
    intro hne
    rw [← hres.context] at hne
    rcases hcontext with ⟨_, hin⟩ | hset
    · rw [hholder]
      exact hin
    · exact absurd (mem_of_enclosing hset) hne
  have hfirst : m.firstName? site = m.firstName? site' := by rw [firstName?, firstName?, hholder]
  rw [← hholder] at hparam hglobal ⊢
  rw [hres.context] at hlex ⊢
  obtain ⟨name, hname, hfollows⟩ := hres.lexical hk hlex hparam hglobal
  rw [nearest_eq_findSome? hsite' hk hlex hin] at hfollows
  have hnone : ∀ scope ∈ m.doc.selectsAbove topology site'.holder,
      (¬ m.HasMixin scope.select name ∧ ¬ m.HasAlias topology site'.holder scope.select name) →
      boundIn name (site'.context.policy.lexical == .fullMixinsFirst)
        (m.aliasesVisible site' (m.segmentsOf site'.holder).length) scope = none := by
    intro scope hm hnot
    obtain ⟨i, hs⟩ := Document.exists_scope_of_mem_selectsAbove hm
    exact (boundIn_eq site' hb hs name _).1 hnot.1 hnot.2
  refine ⟨name, hfirst.trans hname, fun inner scope outer heq hinner => ?_, fun hall => ?_⟩
  · have hmem : ∀ other ∈ inner ++ scope :: outer,
        other ∈ m.doc.selectsAbove topology site'.holder :=
      fun other hm => heq ▸ hm
    obtain ⟨i, hs⟩ := Document.exists_scope_of_mem_selectsAbove
      (hmem scope (List.mem_append_right _ List.mem_cons_self))
    have hdecides : ∀ found, boundIn name (site'.context.policy.lexical == .fullMixinsFirst)
        (m.aliasesVisible site' (m.segmentsOf site'.holder).length) scope = some found →
        r.scope = found.1 ∧ r.env = some found.2 := fun found hfound =>
      hfollows.first heq (fun other ho => hnone other (hmem other (List.mem_append_left _ ho))
        (hinner other ho)) hfound
    obtain ⟨_, hmixin, halias⟩ := boundIn_eq site' hb hs name
      (site'.context.policy.lexical == .fullMixinsFirst)
    rw [← Bool.not_eq_true, mixinsFirst_iff] at halias
    rw [mixinsFirst_iff] at hmixin
    exact ⟨fun hm hor => hdecides _ (hmixin hm hor), fun ha hor => hdecides _ (halias ha hor)⟩
  · rw [List.findSome?_eq_none_iff.mpr fun scope hm => hnone scope hm (hall scope hm)] at hfollows
    exact hfollows

/-! ### An alias that hides another -/

/-- A query in the condition of a view has the same alias as the view. -/
def hidingModel : Model :=
  ⟨.ofDefinitions [
    ("E", .object [("elements", .object [("a", .object [("type", .string "cds.String")])])]),
    ("V", .object [("query", .object [("SELECT", .object [
        ("from", .object [("ref", .array [.string "E"]), ("as", .string "e")]),
        ("columns", .array [.object [("ref", .array [.string "a"])]]),
        ("where", .array [.string "exists", .object [("SELECT", .object [
          ("from", .object [("ref", .array [.string "E"]), ("as", .string "e")]),
          ("columns", .array [.object [("ref", .array [.string "e", .string "a"])]])])]])])]),
      ("elements", .object [("a", .object [("type", .string "cds.String")])])])], {}⟩

/-- The column of the inner query. -/
def hidingColumn : Path :=
  ⟨[.key "definitions", .key "V", .key "query", .key "SELECT", .key "where", .index 1,
    .key "SELECT", .key "columns", .index 0]⟩

def hidingView : QueryScope :=
  { number := 1, node := 7, select := 8, aliases := [("e", .path 9)], elementsOwner := some 6,
    next := none }

def hidingQuery : QueryScope :=
  { number := 2, node := 19, select := 20, aliases := [("e", .path 21)], elementsOwner := none,
    next := some 0 }

def hidingTopology : Topology :=
  ⟨6, [hidingView, hidingQuery], [(20, 1), (19, 1), (8, 0), (7, 0)]⟩

def hidingSite : Site :=
  { kind := .reference, holder := 26, context := .columns, main := 6, query := some 1,
    member := none, memberParent := none, base := none }

def hidingResolution : Resolution :=
  { links := [⟨2, some 2⟩, ⟨4, none⟩], art := some 4, parent := some 6, scope := .tableAlias,
    env := some (.tableAlias "e" 2), context := .columns }

/-- Both queries lie around the column. -/
theorem inSelect_hidingColumn : hidingModel.InSelect hidingTopology 26 := by
  have hcolumns : hidingModel.doc.container? 26 = some 25 := by decide +kernel
  have hselect : hidingModel.doc.container? 25 = some 20 := by decide +kernel
  have hquery : hidingModel.doc.container? 20 = some 19 := by decide +kernel
  have hwhere : hidingModel.doc.container? 19 = some 17 := by decide +kernel
  have hview : hidingModel.doc.container? 17 = some 8 := by decide +kernel
  have hinner : hidingModel.doc.Within 20 26 := .step hcolumns (.step hselect .refl)
  have houter : hidingModel.doc.Within 8 20 := .step hquery (.step hwhere (.step hview .refl))
  intro query index scope _ hs
  rcases List.mem_cons.mp (List.mem_of_getElem? hs) with rfl | hmem
  · exact houter.trans hinner
  · cases List.mem_singleton.mp hmem
    exact hinner

/-- The alias of the inner query hides the one of the view. -/
theorem inner_alias_hides_outer :
    (exec (hidingModel.inspect hidingColumn) Cache.empty).1 = .ok hidingResolution ∧
      hidingModel.siteAt? hidingColumn = .ok (hidingTopology, hidingSite) ∧
      hidingModel.doc.selectsAbove hidingTopology 26 = [hidingQuery, hidingView] ∧
      "e" ∈ hidingModel.doc.aliasesIn hidingTopology 20 ∧
      "e" ∈ hidingModel.doc.aliasesIn hidingTopology 8 ∧
      hidingResolution.scope = .tableAlias ∧ hidingResolution.env = some (.tableAlias "e" 2) := by
  have hr : (exec (hidingModel.inspect hidingColumn) Cache.empty).1 = .ok hidingResolution :=
    eq_ok_of_toOption (by decide +kernel)
  have hsite : hidingModel.siteAt? hidingColumn = .ok (hidingTopology, hidingSite) :=
    eq_ok_of_toOption (by decide +kernel)
  have habove : hidingModel.doc.selectsAbove hidingTopology 26 = [hidingQuery, hidingView] := by
    decide +kernel
  have halias : "e" ∈ hidingModel.doc.aliasesIn hidingTopology 20 := by decide +kernel
  obtain ⟨name, hname, hwins, _⟩ := nearest_select_wins .new hr hsite (by decide +kernel)
    (by decide +kernel) (.inl ⟨by decide, inSelect_hidingColumn⟩)
  have hfirst : hidingModel.firstName? hidingSite = some "e" := by decide +kernel
  rw [hfirst] at hname
  cases hname
  obtain ⟨_, hdecided⟩ := hwins [] hidingQuery [hidingView] habove fun other ho => by cases ho
  exact ⟨hr, hsite, habove, halias, by decide +kernel,
    hdecided ⟨.inl (by decide +kernel), halias⟩ (.inr (by decide))⟩

end Model

end SchemaRefs
