import Mathlib.Data.List.Chain
import Mathlib.Data.List.Nodup
import SchemaRefs.Proofs.Requests

/-!
# Well-formed topologies

A topology that was built is well-formed (`Topology.WellFormed`): its scopes are numbered in order,
each stands for one query and one `SELECT`, and the pointers between them follow the document. The
enclosing scope is the one of the nearest `SELECT` around a query, a sub-query among the sources
points back to the query that uses it, and the chains of enclosing scopes are short. A search
through the enclosing queries therefore comes to an end and finds every scope that it asks for,
whatever the answers to its own questions are (`keepsTrack_lexicalHead`).
-/

namespace SchemaRefs

/-! ## The pointers of a topology -/

/-- The node lies within `top` and is another node. -/
def Document.ProperlyWithin (doc : Document) (top node : NodeId) : Prop :=
  doc.Within top node ∧ top ≠ node

/-- The scope with the index `i` is enclosed by the one with the index `j`. -/
def Topology.Leads (topology : Topology) (i j : Nat) : Prop :=
  ∃ scope, topology.scope? i = some scope ∧ scope.next = some j

/-- The numbers, nodes and pointers of a topology fit the document. -/
structure Topology.WellFormed (doc : Document) (definition : NodeId) (topology : Topology) :
    Prop where
  number : ∀ i scope, topology.scope? i = some scope → scope.number = i + 1
  nodes : (topology.queries.map QueryScope.node).Nodup
  selects : (topology.queries.map QueryScope.select).Nodup
  queryOf : ∀ i scope, topology.scope? i = some scope →
    topology.queryOf? scope.node = some i ∧ topology.queryOf? scope.select = some i
  /-- A query has an enclosing scope if a `SELECT` with a number lies around it. -/
  enclosed : ∀ i scope, topology.scope? i = some scope →
    (scope.next.isSome = true ↔
      ∃ outer ∈ topology.queries, doc.ProperlyWithin outer.select scope.node)
  /-- The enclosing scope comes before and is the one of the nearest `SELECT`. -/
  nearest : ∀ i scope j, topology.scope? i = some scope → scope.next = some j →
    j < i ∧ ∃ outer, topology.scope? j = some outer ∧ doc.ProperlyWithin outer.select scope.node ∧
      ∀ other ∈ topology.queries, doc.ProperlyWithin other.select scope.node →
        doc.Within other.select outer.select
  /-- A sub-query among the sources of a query has its own scope, right below the one of the
  query. -/
  subquery : ∀ i scope name item index, topology.scope? i = some scope →
    (name, .query item index) ∈ scope.aliases →
    i < index ∧ index < topology.queries.length ∧ topology.Leads index i ∧
      topology.queryOf? item = some index
  /-- The carrier of the result elements is part of the definition and has elements. -/
  carrier : ∀ i scope owner, topology.scope? i = some scope → scope.elementsOwner = some owner →
    doc.Within definition owner ∧ doc.hasProp owner "elements" = true
  chain : ∀ i rest, i < topology.queries.length → (i :: rest).IsChain topology.Leads →
    (i :: rest).length ≤ maxQueryNesting + 1

namespace Document

variable {doc : Document}

instance symm_apart : Std.Symm doc.Apart :=
  ⟨fun _ _ h => ⟨h.2, h.1⟩⟩

theorem mem_subqueries_of_source {select item : NodeId}
    (h : .query item ∈ doc.selectSources select) : item ∈ doc.subqueries select := by
  unfold selectSources at h
  split at h
  · next source hsource =>
    apply List.mem_append_left
    rw [fromQueries, hsource]
    exact List.mem_flatMap.mpr ⟨.query item, h, List.mem_singleton.mpr rfl⟩
  · cases h

end Document

namespace Skeleton

variable {doc : Document} {main : NodeId} {sk : Skeleton}

/-- A node has one innermost scope. -/
theorem Sound.innermost_unique (hs : sk.Sound doc main) {node : NodeId} {a b : Option Nat}
    (ha : sk.Innermost doc node a) (hb : sk.Innermost doc node b) : a = b := by
  cases a with
  | none =>
    cases b with
    | none => rfl
    | some j =>
      obtain ⟨shape, hj, he, _⟩ := hb
      exact absurd he (ha shape (List.mem_of_getElem? hj))
  | some i =>
    obtain ⟨shape, hi, he, hall⟩ := ha
    cases b with
    | none => exact absurd he (hb shape (List.mem_of_getElem? hi))
    | some j =>
      obtain ⟨shape', hj, he', hall'⟩ := hb
      have heq : shape.select = shape'.select :=
        (hall' shape (List.mem_of_getElem? hi) he).antisymm
          (hall shape' (List.mem_of_getElem? hj) he')
      have hmem := (hs.listed i shape hi).2
      rw [heq] at hmem
      rw [hs.functional _ i j hmem (hs.listed j shape' hj).2]

/-- The innermost scope around a sub-query is the one of the `SELECT` that it is directly inside. -/
theorem Sound.innermost_of_mem_subqueries (hs : sk.Sound doc main) {i : Nat} {shape : ScopeShape}
    (hi : sk.shapes[i]? = some shape) {sub : NodeId} (hsub : sub ∈ doc.subqueries shape.select) :
    sk.Innermost doc sub (some i) := by
  have hin := Document.within_of_mem_subqueries hsub
  refine ⟨shape, hi, hin, fun other hm he => ?_⟩
  rcases Document.within_total he.1 hin.1 with h | h
  · exact h
  · -- a `SELECT` in between would lie in a sub-query that has something in common with this one
    obtain ⟨k, hk⟩ := hs.select_mem hm
    rcases hs.cover shape (List.mem_of_getElem? hi) _ k hk h with heq | ⟨sub', hsub', hw⟩
    · rw [heq]
      exact .refl
    · have hsame : sub' = sub := by
        by_contra hne
        exact ((Document.pairwise_apart_subqueries shape.select).forall hsub' hsub hne).1
          (hw.trans he.1)
      exact absurd (he.1.antisymm (hsame ▸ hw)) he.2

/-- A bound on the number of scopes that enclose each other bounds every chain of them. -/
theorem length_le_of_chainWithin {R : Nat → Nat → Prop}
    (hR : ∀ i j, R i j → ∃ shape, sk.shapes[i]? = some shape ∧ shape.next = some j)
    {count i : Nat} {rest : List Nat} (h : sk.ChainWithin count (some i))
    (hchain : (i :: rest).IsChain R) : (i :: rest).length ≤ count := by
  induction count generalizing i rest with
  | zero => exact h.elim
  | succ count ih =>
    cases rest with
    | nil => simp
    | cons j rest =>
      obtain ⟨shape, hi, hnext⟩ := h
      rw [List.isChain_cons_cons] at hchain
      obtain ⟨shape', hi', hj⟩ := hR i j hchain.1
      rw [hi] at hi'
      cases hi'
      rw [hj] at hnext
      exact Nat.succ_le_succ (ih hnext hchain.2)

end Skeleton

namespace Document

variable {doc : Document} {definition : NodeId} {topology : Topology} {links : List TopologyLink}
  {i : Nat} {scope : QueryScope}

/-- The scopes of a topology stand for different nodes. -/
theorem Built.nodup_map (h : doc.Built definition topology links) {f : QueryScope → NodeId}
    (hf : ∀ i scope, topology.scope? i = some scope → (f scope, i) ∈ topology.queryTable) :
    (topology.queries.map f).Nodup := by
  refine List.nodup_iff_getElem?_ne_getElem?.mpr fun i j hij hj heq => ?_
  rw [List.length_map] at hj
  have hscope : topology.scope? j = some topology.queries[j] := List.getElem?_eq_getElem hj
  rw [List.getElem?_map, List.getElem?_map, List.getElem?_eq_getElem hj,
    List.getElem?_eq_getElem (Nat.lt_trans hij hj), Option.map_some, Option.map_some,
    Option.some.injEq] at heq
  have hi := hf i _ (List.getElem?_eq_getElem (Nat.lt_trans hij hj))
  rw [heq] at hi
  exact Nat.ne_of_lt hij (h.sound.functional _ i j hi (hf j _ hscope))

theorem Built.shape_of_scope (hs : topology.scope? i = some scope) :
    topology.skeleton.shapes[i]? = some scope.shape := by
  rw [getElem?_shapes, hs, Option.map_some]

theorem forall_shapes_iff {p : ScopeShape → Prop} :
    (∀ shape ∈ topology.skeleton.shapes, p shape) ↔ ∀ scope ∈ topology.queries, p scope.shape := by
  simp [Topology.skeleton]

/-- The scope around a query is the innermost one around its node. -/
theorem Built.innermost_next (h : doc.Built definition topology links)
    (hs : topology.scope? i = some scope) :
    topology.skeleton.Innermost doc scope.node scope.next := by
  obtain ⟨scope', hs', _, hin⟩ := h.scope_of_mem (h.mem_of_scope hs).1
  rw [hs] at hs'
  cases hs'
  exact hin

theorem Built.isSome_next_iff (h : doc.Built definition topology links)
    (hs : topology.scope? i = some scope) :
    scope.next.isSome = true ↔
      ∃ outer ∈ topology.queries, doc.ProperlyWithin outer.select scope.node := by
  have hin := h.innermost_next hs
  cases hnext : scope.next with
  | none =>
    rw [hnext] at hin
    constructor
    · intro hsome
      cases hsome
    · rintro ⟨outer, ho, hw⟩
      exact absurd hw (forall_shapes_iff.mp hin outer ho)
  | some j =>
    rw [hnext] at hin
    obtain ⟨shape, hj, he, _⟩ := hin
    rw [getElem?_shapes] at hj
    obtain ⟨outer, ho, rfl⟩ := Option.map_eq_some_iff.mp hj
    exact ⟨fun _ => ⟨outer, List.mem_of_getElem? ho, he⟩, fun _ => rfl⟩

theorem Built.nearest_next (h : doc.Built definition topology links) {j : Nat}
    (hs : topology.scope? i = some scope) (hnext : scope.next = some j) :
    j < i ∧ ∃ outer, topology.scope? j = some outer ∧ doc.ProperlyWithin outer.select scope.node ∧
      ∀ other ∈ topology.queries, doc.ProperlyWithin other.select scope.node →
        doc.Within other.select outer.select := by
  have hin := h.innermost_next hs
  rw [hnext] at hin
  obtain ⟨shape, hj, he, hall⟩ := hin
  rw [getElem?_shapes] at hj
  obtain ⟨outer, ho, rfl⟩ := Option.map_eq_some_iff.mp hj
  exact ⟨h.sound.next_lt i scope.shape j (Built.shape_of_scope hs) hnext, outer, ho, he,
    forall_shapes_iff.mp hall⟩

/-- A sub-query among the sources of a query points back to the query. -/
theorem Built.subquery_alias (h : doc.Built definition topology links) {index : Nat}
    {name : String} {item : NodeId} (hs : topology.scope? i = some scope)
    (hb : (name, .query item index) ∈ scope.aliases) :
    i < index ∧ index < topology.queries.length ∧ topology.Leads index i ∧
      topology.queryOf? item = some index := by
  obtain ⟨leaf, hleaf, hbinds⟩ := (h.complete i scope hs).aliases.sound name _ hb
  cases leaf with
  | query sub =>
    obtain ⟨index', hmem, _, heq⟩ := hbinds
    cases heq
    obtain ⟨inner, hinner, _, hin⟩ := h.scope_of_mem hmem
    have hnext : inner.next = some i := h.sound.innermost_unique hin
      (h.sound.innermost_of_mem_subqueries (Built.shape_of_scope hs)
        (mem_subqueries_of_source hleaf))
    exact ⟨(h.nearest_next hinner hnext).1, (List.getElem?_eq_some_iff.mp hinner).1,
      ⟨inner, hinner, hnext⟩, h.queryOf?_eq_some_iff.mpr hmem⟩
  | path item' tableAlias => cases hbinds.2
  | condition expr => exact hbinds.elim
  | fault item' fault => exact hbinds.elim

/-- No more scopes enclose each other than queries may be nested. -/
theorem Built.length_chain_le (h : doc.Built definition topology links) {rest : List Nat}
    (hi : i < topology.queries.length) (hchain : (i :: rest).IsChain topology.Leads) :
    (i :: rest).length ≤ maxQueryNesting + 1 := by
  refine Skeleton.length_le_of_chainWithin (fun i j hlead => ?_) (h.sound.chain i ?_) hchain
  · obtain ⟨scope, hs, hnext⟩ := hlead
    exact ⟨scope.shape, Built.shape_of_scope hs, hnext⟩
  · rw [Topology.skeleton, List.length_map]
    exact hi

theorem Built.wellFormed (h : doc.Built definition topology links) :
    topology.WellFormed doc definition where
  number i scope hs := h.sound.number i scope.shape (Built.shape_of_scope hs)
  nodes := h.nodup_map fun _ _ hs => (h.mem_of_scope hs).1
  selects := h.nodup_map fun _ _ hs => (h.mem_of_scope hs).2
  queryOf i scope hs := by
    obtain ⟨hnode, hselect⟩ := h.mem_of_scope hs
    exact ⟨h.queryOf?_eq_some_iff.mpr hnode, h.queryOf?_eq_some_iff.mpr hselect⟩
  enclosed _ _ hs := h.isSome_next_iff hs
  nearest _ _ _ hs hnext := h.nearest_next hs hnext
  subquery _ _ _ _ _ hs hb := h.subquery_alias hs hb
  carrier i scope owner hs ho := (h.complete i scope hs).carrier owner ho
  chain _ _ hi hchain := h.length_chain_le hi hchain

end Document

/-! ## Searches in the enclosing queries -/

/-- An inquiry that gets any answers and fails only as `error` says. -/
def Contract.failing (error : ResolveError → Prop) : Contract where
  path := fun _ => True
  node := fun _ => True
  resolution := fun _ _ => True
  type := fun _ _ => True
  error := error

/-- A search has left the scopes of the topology, or has not come to an end. -/
def ResolveError.isLostSearch : ResolveError → Bool
  | .assertion (.endlessScopes _) => true
  | .assertion (.noScope _) => true
  | _ => false

/-- No search in the inquiry gets lost, whatever the answers to its questions are. -/
def Inquiry.KeepsTrack {α : Type} (x : Inquiry α) : Prop :=
  x.Meets (.failing fun e => e.isLostSearch = false) fun _ => True

namespace Model

open Inquiry

variable {m : Model} {topology : Topology}

theorem keepsTrack_aliasLink (binding : AliasBinding) :
    (m.aliasLink topology binding).KeepsTrack := by
  cases binding with
  | path item =>
    have hasked : (resolutionAt (m.doc.pathOf item)).KeepsTrack := ⟨trivial, fun _ _ => trivial⟩
    refine Meets.bind hasked fun r _ => ?_
    split
    · trivial
    · rfl
  | query item index =>
    simp only [aliasLink]
    split
    · trivial
    · rfl

theorem keepsTrack_bindingIn (name : String) (mixinsFirst visible : Bool) (scope : QueryScope) :
    (m.bindingIn topology name mixinsFirst visible scope).KeepsTrack := by
  have hhead : ∀ binding, (m.aliasHead topology name scope binding).KeepsTrack :=
    fun binding => Meets.bind (keepsTrack_aliasLink binding) fun _ _ => trivial
  unfold bindingIn
  dsimp only
  split
  · trivial
  · exact Meets.bind (hhead _) fun _ _ => trivial
  · trivial

/-- A search along a short chain of scopes reaches its end. -/
theorem keepsTrack_lexicalFrom (name : String) (mixinsFirst visible : Bool) {count steps : Nat}
    {index : Option Nat} (hle : count ≤ steps)
    (hchain : topology.skeleton.ChainWithin count index) :
    (m.lexicalFrom topology name mixinsFirst visible steps index).KeepsTrack := by
  induction count generalizing steps index with
  | zero =>
    cases index with
    | none => cases steps <;> trivial
    | some index => exact hchain.elim
  | succ count ih =>
    cases index with
    | none => cases steps <;> trivial
    | some index =>
      obtain ⟨steps, rfl⟩ := Nat.exists_eq_add_one_of_ne_zero (Nat.ne_zero_of_lt hle)
      obtain ⟨shape, hshape, hnext⟩ := hchain
      rw [Document.getElem?_shapes] at hshape
      obtain ⟨scope, hs, rfl⟩ := Option.map_eq_some_iff.mp hshape
      unfold lexicalFrom
      rw [hs]
      refine Meets.bind (keepsTrack_bindingIn name mixinsFirst visible scope) fun head _ => ?_
      split
      · trivial
      · exact ih (Nat.le_of_succ_le_succ hle) hnext

theorem keepsTrack_lexicalHead {path : Path} {site : Site}
    (hsite : m.siteAt? path = .ok (topology, site)) (lexical : Lexical) (name : String)
    (segments : Nat) :
    (m.lexicalHead site topology lexical name segments).KeepsTrack :=
  keepsTrack_lexicalFrom name _ _ (by decide) (chainWithin_lexicalStart hsite lexical)

end Model

/-- A topology that was built is well-formed, and no search in its enclosing queries gets lost. -/
theorem wellFormed_of_buildTopology {doc : Document} {options : Options} {definition : NodeId}
    {topology : Topology} {links : List TopologyLink}
    (hb : doc.buildTopology options definition = .ok (topology, links)) :
    topology.WellFormed doc definition ∧
      ∀ path site, doc.pathDefinition path = .ok definition →
        Site.analyze doc topology path = .ok site →
        ∀ lexical name segments,
          ((⟨doc, options⟩ : Model).lexicalHead
            site topology lexical name segments).KeepsTrack := by
  refine ⟨(Document.built_buildTopology hb).wellFormed,
    fun path site hd ha lexical name segments => ?_⟩
  have hsite : (⟨doc, options⟩ : Model).siteAt? path = .ok (topology, site) :=
    Model.siteAt?_of_analyze hd hb ha
  exact Model.keepsTrack_lexicalHead hsite lexical name segments

/-! ### A union of unions -/

/-- A view whose query is a union; its first arm is a union as well and starts with a query over a
sub-query, its second arm ends in a condition with a query. -/
def unionDocument : Document :=
  .ofDefinitions [
    ("E", .object [("elements", .object [("a", .object [("type", .string "cds.String")])])]),
    ("V", .object [("query", .object [("SET", .object [("args", .array [
      .object [("SET", .object [("args", .array [
        .object [("SELECT", .object [
          ("from", .object [("SELECT", .object [("from", .object [("ref", .array [.string "E"])])]),
            ("as", .string "s")]),
          ("columns", .array [.object [("ref", .array [.string "s", .string "a"])]])])],
        .object [("SELECT", .object [("from", .object [("ref", .array [.string "E"])]),
          ("where", .array [.string "exists", .object [("SELECT", .object [
            ("from", .object [("ref", .array [.string "E"])])])]])])]])])],
      .object [("SELECT", .object [("from", .object [("ref", .array [.string "E"])])])]])])])])]

/-- The scopes of the leading query, its sub-query, the second query, the one in its condition and
the last arm. -/
def unionScopes : List QueryScope :=
  [{ number := 1, node := 13, select := 14, setNodes := [10, 7], aliases := [("s", .query 15 1)],
     elementsOwner := none, next := none },
   { number := 2, node := 15, select := 16, aliases := [("E", .path 17)], elementsOwner := none,
     next := some 0 },
   { number := 3, node := 26, select := 27, aliases := [("E", .path 28)], elementsOwner := none,
     next := none },
   { number := 4, node := 33, select := 34, aliases := [("E", .path 35)], elementsOwner := none,
     next := some 2 },
   { number := 5, node := 38, select := 39, aliases := [("E", .path 40)], elementsOwner := none,
     next := none }]

def unionTopology : Topology :=
  ⟨6, unionScopes, [(39, 4), (38, 4), (8, 0), (7, 0), (34, 3), (33, 3), (27, 2), (26, 2),
    (11, 0), (10, 0), (16, 1), (15, 1), (14, 0), (13, 0)]⟩

/-- The column of the leading query. -/
def unionColumn : Path :=
  ⟨[.key "definitions", .key "V", .key "query", .key "SET", .key "args", .index 0,
    .key "SET", .key "args", .index 0, .key "SELECT", .key "columns", .index 0]⟩

def unionSite : Site :=
  { kind := .reference, holder := 22, context := .columns, main := 6, query := some 0,
    member := none, memberParent := none, base := none }

theorem buildTopology_unionDocument :
    unionDocument.buildTopology {} 6 = .ok (unionTopology, []) :=
  Model.eq_ok_of_toOption (by decide +kernel)

/-- The topology of the union is well-formed: the sub-query points back to the leading query. -/
theorem wellFormed_union :
    unionDocument.buildTopology {} 6 = .ok (unionTopology, []) ∧
      unionTopology.WellFormed unionDocument 6 ∧ unionTopology.Leads 1 0 ∧
      unionDocument.pathDefinition unionColumn = .ok 6 ∧
      Site.analyze unionDocument unionTopology unionColumn = .ok unionSite ∧
      ((⟨unionDocument, {}⟩ : Model).lexicalHead
        unionSite unionTopology .full "s" 2).KeepsTrack := by
  have hd : unionDocument.pathDefinition unionColumn = .ok 6 :=
    Model.eq_ok_of_toOption (by decide +kernel)
  have ha : Site.analyze unionDocument unionTopology unionColumn = .ok unionSite :=
    Model.eq_ok_of_toOption (by decide +kernel)
  obtain ⟨hwf, hsearch⟩ := wellFormed_of_buildTopology buildTopology_unionDocument
  obtain ⟨_, _, hleads, _⟩ := hwf.subquery 0 _ "s" 15 1 rfl List.mem_cons_self
  exact ⟨buildTopology_unionDocument, hwf, hleads, hd, ha,
    hsearch unionColumn unionSite hd ha .full "s" 2⟩

end SchemaRefs
