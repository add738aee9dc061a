import SchemaRefs.Proofs.Bisimulation
import SchemaRefs.Proofs.ColumnSteps

/-!
# Constructions in step

Two constructions of a topology, over documents that mirror each other, are run side by side. Either
both go on with drafts that are the same up to handles, or the first fails. In the latter case the
second fails in the same way, unless it is more lenient: a construction that tolerates partial
documents may go on where a strict one refuses a column (`Follows`). All failures are malformed
queries.

Main statement: `follows_buildTopology`. It is used for one document under two sets of options and
for two documents under one.
-/

namespace SchemaRefs

/-! ## Outcomes -/

/-- The second outcome follows the first: both succeed with related results, or the first is a
malformed query and the second the same one, or anything if it is more lenient. -/
inductive Follows {α β : Type} (lenient : Prop) (P : α → β → Prop) :
    Except ModelError α → Except ModelError β → Prop where
  | ok {a : α} {b : β} : P a b → Follows lenient P (.ok a) (.ok b)
  | fails {e : ModelError} : e.kind = .malformedQuery → Follows lenient P (.error e) (.error e)
  | eased {e : ModelError} (y : Except ModelError β) : e.kind = .malformedQuery → lenient →
      Follows lenient P (.error e) y

namespace Follows

variable {α β γ δ : Type} {lenient : Prop} {P : α → β → Prop} {Q : γ → δ → Prop}

theorem bind {x : Except ModelError α} {y : Except ModelError β} {f : α → Except ModelError γ}
    {g : β → Except ModelError δ} (hx : Follows lenient P x y)
    (hf : ∀ a b, P a b → Follows lenient Q (f a) (g b)) :
    Follows lenient Q (x >>= f) (y >>= g) := by
  cases hx with
  | ok hab => exact hf _ _ hab
  | fails he => exact .fails he
  | eased y he hl => exact .eased _ he hl

theorem foldlM {f : γ → α → Except ModelError γ} {g : δ → β → Except ModelError δ} {xs : List α}
    {ys : List β} (h : List.Forall₂ P xs ys)
    (step : ∀ c d a b, a ∈ xs → P a b → Q c d → Follows lenient Q (f c a) (g d b)) :
    ∀ c d, Q c d → Follows lenient Q (xs.foldlM f c) (ys.foldlM g d) := by
  induction h with
  | nil => exact fun c d hcd => .ok hcd
  | cons hab _ ih =>
    intro c d hcd
    rw [List.foldlM_cons, List.foldlM_cons]
    refine (step c d _ _ List.mem_cons_self hab hcd).bind fun c' d' hcd' => ?_
    exact ih (fun c d a b ha => step c d a b (List.mem_cons_of_mem _ ha)) c' d' hcd'

end Follows

/-- The options agree, or the first are strict and the other ones may be lenient. -/
def Options.Eased (lenient : Prop) (options options' : Options) : Prop :=
  options' = options ∨ (options.toleratePartial = false ∧ lenient)

/-! ## Topologies up to handles -/

section Relations

variable (R : NodeId → NodeId → Prop)

/-- The bindings are the same up to handles. -/
inductive AliasBinding.Related : AliasBinding → AliasBinding → Prop where
  | path {item item' : NodeId} : R item item' → Related (.path item) (.path item')
  | query {item item' : NodeId} (index : Nat) : R item item' →
      Related (.query item index) (.query item' index)

/-- The scopes are the same up to handles. -/
structure QueryScope.Related (scope scope' : QueryScope) : Prop where
  number : scope.number = scope'.number
  node : R scope.node scope'.node
  select : R scope.select scope'.select
  setNodes : List.Forall₂ R scope.setNodes scope'.setNodes
  aliases : Table.Related (AliasBinding.Related R) scope.aliases scope'.aliases
  mixins : Table.Related R scope.mixins scope'.mixins
  elementsOwner : Option.Rel R scope.elementsOwner scope'.elementsOwner
  next : scope.next = scope'.next

/-- The tables number related nodes alike, in the same order. -/
abbrev NumbersAlike : List (NodeId × Nat) → List (NodeId × Nat) → Prop :=
  List.Forall₂ fun p q => R p.1 q.1 ∧ p.2 = q.2

/-- The topologies are the same up to handles. -/
structure Topology.Related (topology topology' : Topology) : Prop where
  definition : R topology.definition topology'.definition
  queries : List.Forall₂ (QueryScope.Related R) topology.queries topology'.queries
  queryTable : NumbersAlike R topology.queryTable topology'.queryTable

/-- The drafts are the same up to handles. -/
structure Draft.Related (draft draft' : Draft) : Prop where
  queries : List.Forall₂ (QueryScope.Related R) draft.queries draft'.queries
  queryTable : NumbersAlike R draft.queryTable draft'.queryTable
  links : List.Forall₂ (TopologyLink.Related R) draft.links draft'.links

/-- What is known after some columns is the same up to handles. -/
structure ColumnWalk.Related (walk walk' : ColumnWalk) : Prop where
  wildcard : walk.wildcard = walk'.wildcard
  linked : walk.linked = walk'.linked
  links : List.Forall₂ (TopologyLink.Related R) walk.links walk'.links

end Relations

variable {R : NodeId → NodeId → Prop}

/-! ### Weaker relations -/

section Weaker

variable {S : NodeId → NodeId → Prop} (hRS : ∀ a b, R a b → S a b)

include hRS

theorem TopologyLink.Related.mono {link link' : TopologyLink}
    (h : TopologyLink.Related R link link') :
    TopologyLink.Related S link link' := by
  cases h with
  | parent hm hp => exact .parent (hRS _ _ hm) (hRS _ _ hp)
  | column hc he => exact .column (hRS _ _ hc) (hRS _ _ he)

theorem AliasBinding.Related.mono {binding binding' : AliasBinding}
    (h : AliasBinding.Related R binding binding') : AliasBinding.Related S binding binding' := by
  cases h with
  | path hi => exact .path (hRS _ _ hi)
  | query index hi => exact .query index (hRS _ _ hi)

theorem QueryScope.Related.mono {scope scope' : QueryScope}
    (h : QueryScope.Related R scope scope') :
    QueryScope.Related S scope scope' where
  number := h.number
  node := hRS _ _ h.node
  select := hRS _ _ h.select
  setNodes := h.setNodes.imp hRS
  aliases := h.aliases.imp fun _ _ hp => ⟨hp.1, hp.2.mono hRS⟩
  mixins := h.mixins.imp fun _ _ hp => ⟨hp.1, hRS _ _ hp.2⟩
  elementsOwner := h.elementsOwner.mono hRS
  next := h.next

theorem Topology.Related.mono {topology topology' : Topology}
    (h : Topology.Related R topology topology') :
    Topology.Related S topology topology' where
  definition := hRS _ _ h.definition
  queries := h.queries.imp fun _ _ hs => hs.mono hRS
  queryTable := h.queryTable.imp fun _ _ hp => ⟨hRS _ _ hp.1, hp.2⟩

end Weaker

/-! ### Equal handles -/

theorem TopologyLink.eq_of_related {link link' : TopologyLink}
    (h : TopologyLink.Related Eq link link') :
    link = link' := by
  cases h with
  | parent hm hp => rw [hm, hp]
  | column hc he => rw [hc, he]

theorem AliasBinding.eq_of_related {binding binding' : AliasBinding}
    (h : AliasBinding.Related Eq binding binding') : binding = binding' := by
  cases h with
  | path hi => rw [hi]
  | query index hi => rw [hi]

theorem QueryScope.eq_of_related {scope scope' : QueryScope}
    (h : QueryScope.Related Eq scope scope') :
    scope = scope' := by
  obtain ⟨number, node, select, sets, aliases, mixins, owner, next⟩ := scope
  obtain ⟨number', node', select', sets', aliases', mixins', owner', next'⟩ := scope'
  obtain ⟨hnumber, hnode, hselect, hsets, haliases, hmixins, howner, hnext⟩ := h
  dsimp only at hnumber hnode hselect hsets haliases hmixins howner hnext
  rw [hnumber, hnode, hselect, eq_of_forall₂ hsets fun _ _ h => h,
    eq_of_forall₂ haliases fun _ _ h => Prod.ext h.1 (AliasBinding.eq_of_related h.2),
    eq_of_forall₂ hmixins fun _ _ h => Prod.ext h.1 h.2, howner.eq_of_eq, hnext]

theorem Topology.eq_of_related {topology topology' : Topology}
    (h : Topology.Related Eq topology topology') : topology = topology' := by
  obtain ⟨definition, queries, table⟩ := topology
  obtain ⟨definition', queries', table'⟩ := topology'
  obtain ⟨hdefinition, hqueries, htable⟩ := h
  dsimp only at hdefinition hqueries htable
  rw [hdefinition, eq_of_forall₂ hqueries fun _ _ h => QueryScope.eq_of_related h,
    eq_of_forall₂ htable fun _ _ h => Prod.ext h.1 h.2]

namespace Draft.Related

variable {draft draft' : Draft}

theorem assign (h : Draft.Related R draft draft') {node node' : NodeId} (hn : R node node')
    (index : Nat) :
    Draft.Related R (draft.assign node index) (draft'.assign node' index) :=
  ⟨h.queries, .cons ⟨hn, rfl⟩ h.queryTable, h.links⟩

theorem addScope (h : Draft.Related R draft draft') {scope scope' : QueryScope}
    (hs : QueryScope.Related R scope scope') :
    Draft.Related R (draft.addScope scope) (draft'.addScope scope') :=
  ⟨List.rel_append h.queries (.cons hs .nil), h.queryTable, h.links⟩

theorem addLinks (h : Draft.Related R draft draft') {links links' : List TopologyLink}
    (hl : List.Forall₂ (TopologyLink.Related R) links links') :
    Draft.Related R (draft.addLinks links) (draft'.addLinks links') :=
  ⟨h.queries, h.queryTable, List.rel_append h.links hl⟩

theorem modifyScope (h : Draft.Related R draft draft') (index : Nat)
    {f f' : QueryScope → QueryScope}
    (hf : ∀ scope scope', QueryScope.Related R scope scope' →
      QueryScope.Related R (f scope) (f' scope')) :
    Draft.Related R (draft.modifyScope index f) (draft'.modifyScope index f') := by
  refine ⟨?_, h.queryTable, h.links⟩
  have hq := h.queries
  show List.Forall₂ _ (draft.queries.modify index f) (draft'.queries.modify index f')
  generalize draft.queries = scopes at hq
  generalize draft'.queries = scopes' at hq
  induction hq generalizing index with
  | nil => cases index <;> exact .nil
  | cons hs hrest ih =>
    cases index with
    | zero => exact .cons (hf _ _ hs) hrest
    | succ index => exact .cons hs (ih index)

theorem elementsOwner? (h : Draft.Related R draft draft') (index : Nat) :
    Option.Rel R (draft.elementsOwner? index) (draft'.elementsOwner? index) :=
  (rel_getElem? h.queries index).bind fun _ _ hs => hs.elementsOwner

theorem bindAlias (h : Draft.Related R draft draft') (index : Nat) (name : String)
    {binding binding' : AliasBinding} (hb : AliasBinding.Related R binding binding') :
    Draft.Related R
      (draft.modifyScope index fun scope =>
        { scope with aliases := Table.put scope.aliases name binding })
      (draft'.modifyScope index fun scope =>
        { scope with aliases := Table.put scope.aliases name binding' }) :=
  h.modifyScope index fun _ _ hs => { hs with aliases := hs.aliases.put name hb }

end Draft.Related

namespace Document

variable {doc doc' : Document} {lenient : Prop} {options options' : Options}
  {walk walk' : ColumnWalk} {column column' : NodeId}

/-! ## Columns -/

theorem follows_malformed {α β : Type} {P : α → β → Prop} (h : Mirrors R doc doc')
    {node node' : NodeId} (hn : R node node') (message : String) :
    Follows lenient P (.error (doc.malformedAt node message))
      (.error (doc'.malformedAt node' message)) := by
  rw [h.malformedAt_eq hn]
  exact .fails rfl

/-- A refusal is the same on both sides, or the second side skips the column. -/
theorem follows_refuseColumn (h : Mirrors R doc doc') (ho : Options.Eased lenient options options')
    (hc : R column column') (message : String) (hw : ColumnWalk.Related R walk walk') :
    Follows lenient (ColumnWalk.Related R) (doc.refuseColumn options column message walk)
      (doc'.refuseColumn options' column' message walk') := by
  unfold refuseColumn
  rcases ho with rfl | ⟨hstrict, hl⟩
  · split
    · exact .ok hw
    · exact follows_malformed h hc message
  · rw [if_neg (by simp [hstrict])]
    exact .eased _ rfl hl

/-- The programs for the items of inlined and expanded columns keep in step, as far as the items
come after `bound`. -/
def InnerInStep (lenient : Prop) (R : NodeId → NodeId → Prop) (doc : Document) (bound : Nat)
    (inner inner' : NodeId → String → NodeId → Except ModelError ColumnWalk) : Prop :=
  ∀ (columns columns' elements elements' : NodeId) (start : String), bound < columns →
    columns < doc.size → R columns columns' → R elements elements' →
    Follows lenient (ColumnWalk.Related R) (inner elements start columns)
      (inner' elements' start columns')

theorem follows_linkMember (h : Mirrors R doc doc') (ho : Options.Eased lenient options options')
    {inner inner' : NodeId → String → NodeId → Except ModelError ColumnWalk}
    {element element' : NodeId} (hi : InnerInStep lenient R doc column inner inner')
    (hc : R column column') (he : R element element') (full : String) (number : Nat)
    (hw : ColumnWalk.Related R walk walk') :
    Follows lenient (ColumnWalk.Related R)
      (doc.linkMember options inner full number column element walk)
      (doc'.linkMember options' inner' full number column' element' walk') := by
  have hlinks := List.rel_append hw.links (.cons (.column hc he) .nil)
  have hone : ColumnWalk.Related R
      { walk with
        linked := walk.linked + 1, links := walk.links ++ [.column column element] }
      { walk' with
        linked := walk'.linked + 1, links := walk'.links ++ [.column column' element'] } :=
    ⟨hw.wildcard, congrArg (· + 1) hw.linked, hlinks⟩
  unfold linkMember
  rcases (h.prop? hc "expand").some_or_none with ⟨x, x', hx, hx', hxx⟩ | ⟨hx, hx'⟩
  · have hlt := prop?_lt hx
    rcases (h.expandedElements? he).some_or_none with ⟨els, els', hel, hel', hels⟩ | ⟨hel, hel'⟩
    · rw [hx, hx', hel, hel']
      refine (hi x x' els els' "" hlt.1 hlt.2 hxx hels).bind fun rest rest' hrest => ?_
      exact .ok ⟨hone.wildcard, hone.linked, List.rel_append hlinks hrest.links⟩
    · rw [hx, hx', hel, hel']
      exact follows_refuseColumn h ho hc _ hone
  · rw [hx, hx']
    exact .ok hone

theorem follows_linkColumn (h : Mirrors R doc doc') (ho : Options.Eased lenient options options')
    {inner inner' : NodeId → String → NodeId → Except ModelError ColumnWalk}
    {elements elements' : NodeId} (hi : InnerInStep lenient R doc column inner inner')
    (he : R elements elements') (hc : R column column') (start : String) (number position : Nat)
    (hw : ColumnWalk.Related R walk walk') :
    Follows lenient (ColumnWalk.Related R)
      (doc.linkColumn options inner elements start number walk (column, position))
      (doc'.linkColumn options' inner' elements' start number walk' (column', position)) := by
  unfold linkColumn
  dsimp only
  rw [h.isWildcard_eq hc, h.columnKey_eq he hc, hw.wildcard]
  split
  · exact .ok ⟨rfl, hw.linked, hw.links⟩
  split
  · exact follows_refuseColumn h ho hc _ hw
  rename_i name _
  rcases (h.prop? hc "inline").some_or_none with ⟨x, x', hx, hx', hxx⟩ | ⟨hx, hx'⟩
  · have hlt := prop?_lt hx
    rw [hx, hx']
    refine (hi x x' elements elements' _ hlt.1 hlt.2 hxx he).bind fun rest rest' hrest => ?_
    exact .ok ⟨rfl, congrArg₂ (· + ·) hw.linked hrest.linked, List.rel_append hw.links hrest.links⟩
  · rw [hx, hx']
    rcases (h.prop? he (start ++ name)).some_or_none with ⟨e, e', hel, hel', hee⟩ | ⟨hel, hel'⟩
    · rw [hel, hel']
      exact follows_linkMember h ho hi hc hee _ number hw
    · rw [hel, hel']
      exact follows_refuseColumn h ho hc _ hw

theorem follows_linkColumns (h : Mirrors R doc doc') (ho : Options.Eased lenient options options')
    (number : Nat) {columns columns' : NodeId} (hc : R columns columns')
    {elements elements' : NodeId} (he : R elements elements') (start : String) :
    Follows lenient (ColumnWalk.Related R) (doc.linkColumns options elements start number columns)
      (doc'.linkColumns options' elements' start number columns') := by
  induction columns using descending_induction doc generalizing columns' elements elements'
    start with
  | step columns ih =>
    rw [linkColumns_eq, linkColumns_eq]
    refine Follows.foldlM (forall₂_zipIdx (h.itemsAt hc) 0) ?_ _ _ ⟨rfl, rfl, .nil⟩
    rintro walk walk' ⟨column, position⟩ ⟨column', position'⟩ hmem ⟨hcc, hpos⟩ hw
    obtain rfl : position = position' := hpos
    have hlt := (lt_of_mem_itemsAt (List.fst_mem_of_mem_zipIdx hmem)).1
    refine follows_linkColumn h ho ?_ he hcc start number position hw
    intro inner inner' els els' start' hb hs hin hels
    exact ih inner (Nat.lt_trans hlt hb) hs hin hels start'

theorem elements?_related (h : Mirrors R doc doc') {scope scope' : QueryScope}
    (hs : QueryScope.Related R scope scope') :
    Option.Rel R (scope.elements? doc) (scope'.elements? doc') :=
  hs.elementsOwner.bind fun _ _ hown => h.prop? hown _

theorem follows_scopeLinks (h : Mirrors R doc doc') (ho : Options.Eased lenient options options')
    {scope scope' : QueryScope} (hs : QueryScope.Related R scope scope') :
    Follows lenient (List.Forall₂ (TopologyLink.Related R)) (doc.scopeLinks options scope)
      (doc'.scopeLinks options' scope') := by
  unfold scopeLinks
  rcases (h.prop? hs.select "columns").some_or_none with ⟨cs, cs', hcs, hcs', hcc⟩ | ⟨hcs, hcs'⟩
  · rcases (elements?_related h hs).some_or_none with ⟨els, els', hel, hel', hee⟩ | ⟨hel, hel'⟩
    · rw [hcs, hcs', hel, hel', ← hs.number]
      dsimp only
      refine (follows_linkColumns h ho scope.number hcc hee "").bind fun walk walk' hw => ?_
      rw [← hw.linked, ← (h.entries hee).length_eq, ← any_eq_of_forall₂ (h.itemsAt hcc)
        fun a b hab => congrArg₂ (· || ·) (h.isWildcard_eq hab) (h.hasProp_eq hab "inline")]
      rcases ho with rfl | ⟨hstrict, hl⟩
      · split
        · exact follows_malformed h hcc _
        · exact .ok hw.links
      · split
        · exact .eased _ rfl hl
        · next hn =>
          rw [hstrict] at hn
          rw [if_neg (fun hy => hn ?_)]
          · exact .ok hw.links
          · simp only [Bool.and_eq_true] at hy
            simp [hy.1]
    · rw [hcs, hcs', hel, hel']
      exact .ok .nil
  · rw [hcs, hcs']
    exact .ok .nil

end Document

/-! ## Programs in step -/

/-- From drafts that are the same up to handles, the second program follows the first. -/
def InStep {α β : Type} (lenient : Prop) (R : NodeId → NodeId → Prop) (P : α → β → Prop)
    (x : BuildM α) (y : BuildM β) : Prop :=
  ∀ draft draft', Draft.Related R draft draft' →
    Follows lenient (fun r r' => P r.1 r'.1 ∧ Draft.Related R r.2 r'.2) (x.run draft) (y.run draft')

namespace InStep

variable {α β γ δ : Type} {lenient : Prop} {P : α → β → Prop} {Q : γ → δ → Prop}

theorem pure {a : α} {b : β} (h : P a b) :
    InStep lenient R P (pure a : BuildM α) (pure b : BuildM β) :=
  fun _ _ hd => .ok ⟨h, hd⟩

theorem bind {x : BuildM α} {y : BuildM β} {f : α → BuildM γ} {g : β → BuildM δ}
    (hx : InStep lenient R P x y) (hf : ∀ a b, P a b → InStep lenient R Q (f a) (g b)) :
    InStep lenient R Q (x >>= f) (y >>= g) := by
  intro draft draft' hd
  rw [StateT.run_bind, StateT.run_bind]
  exact (hx draft draft' hd).bind fun r r' hr => hf r.1 r'.1 hr.1 r.2 r'.2 hr.2

theorem get : InStep lenient R (Draft.Related R) (get : BuildM Draft) (get : BuildM Draft) :=
  fun _ _ hd => .ok ⟨hd, hd⟩

theorem modify {f g : Draft → Draft}
    (h : ∀ draft draft', Draft.Related R draft draft' → Draft.Related R (f draft) (g draft')) :
    InStep lenient R (fun _ _ => True) (modify f : BuildM PUnit) (modify g : BuildM PUnit) :=
  fun draft draft' hd => .ok ⟨trivial, h draft draft' hd⟩

theorem lift {x : Except ModelError α} {y : Except ModelError β} (h : Follows lenient P x y) :
    InStep lenient R P (liftM x : BuildM α) (liftM y : BuildM β) := by
  intro draft draft' hd
  cases h with
  | ok hab => exact .ok ⟨hab, hd⟩
  | fails he => exact .fails he
  | eased y he hl => exact .eased _ he hl

theorem forM {f : α → BuildM PUnit} {g : β → BuildM PUnit} {xs : List α} {ys : List β}
    (h : List.Forall₂ P xs ys)
    (step : ∀ a b, P a b → InStep lenient R (fun _ _ => True) (f a) (g b)) :
    InStep lenient R (fun _ _ => True) (xs.forM f) (ys.forM g) := by
  induction h with
  | nil => exact pure trivial
  | cons hab _ ih => exact bind (step _ _ hab) fun _ _ _ => ih

end InStep

namespace Document

variable {doc doc' : Document} {lenient : Prop} {options options' : Options}
  {definition definition' node node' select select' : NodeId}

theorem inStep_malformed {α β : Type} {P : α → β → Prop} (h : Mirrors R doc doc')
    (hn : R node node') (message : String) :
    InStep lenient R P (throw (doc.malformedAt node message) : BuildM α)
      (throw (doc'.malformedAt node' message) : BuildM β) :=
  fun _ _ _ => follows_malformed h hn message

/-- The visits of related queries keep in step. -/
def VisitsInStep (lenient : Prop) (R : NodeId → NodeId → Prop) (visit visit' : QueryVisit) : Prop :=
  ∀ node node' next isMain, R node node' →
    InStep lenient R Eq (visit node next isMain) (visit' node' next isMain)

/-! ## The visits -/

section Visiting

variable {visit visit' : QueryVisit}

theorem inStep_visitNested (h : Mirrors R doc doc') (hv : VisitsInStep lenient R visit visit')
    (index : Nat) {expr expr' : NodeId} (he : R expr expr') :
    InStep lenient R (fun _ _ => True) (doc.visitNested visit index expr)
      (doc'.visitNested visit' index expr') := by
  refine InStep.forM (forall₂_queriesBelow h he) fun query query' hq => ?_
  exact InStep.bind (hv query query' (some index) false hq) fun _ _ _ => .pure trivial

theorem inStep_visitSource (h : Mirrors R doc doc') (hv : VisitsInStep lenient R visit visit')
    (index : Nat) {leaf leaf' : SourceItem} (hl : SourceItem.Related R leaf leaf') :
    InStep lenient R (fun _ _ => True) (doc.visitSource visit index leaf)
      (doc'.visitSource visit' index leaf') := by
  cases hl with
  | path name hi => exact .modify fun _ _ hd => hd.bindAlias index name (.path hi)
  | query hi =>
    refine InStep.bind (hv _ _ (some index) false hi) ?_
    rintro sub _ rfl
    dsimp only
    rw [h.stringProp?_eq hi]
    exact .modify fun _ _ hd => hd.bindAlias index _ (.query sub hi)
  | condition he => exact inStep_visitNested h hv index he
  | fault fault hi => cases fault <;> exact inStep_malformed h hi _

theorem inStep_visitSources (h : Mirrors R doc doc') (hv : VisitsInStep lenient R visit visit')
    (index : Nat) (hs : R select select') :
    InStep lenient R (fun _ _ => True) (doc.visitSources visit index select)
      (doc'.visitSources visit' index select') := by
  unfold visitSources
  rcases (h.prop? hs "from").some_or_none with ⟨source, source', hx, hx', hxx⟩ | ⟨hx, hx'⟩
  · rw [hx, hx']
    exact InStep.forM (forall₂_sourceItems h hxx) fun _ _ hl => inStep_visitSource h hv index hl
  · rw [hx, hx']
    exact .pure trivial

theorem inStep_bindMixins (h : Mirrors R doc doc') (index : Nat) (hs : R select select') :
    InStep lenient R (fun _ _ => True) (doc.bindMixins index select)
      (doc'.bindMixins index select') := by
  unfold bindMixins
  rcases (h.prop? hs "mixin").some_or_none with ⟨map, map', hx, hx', hxx⟩ | ⟨hx, hx'⟩
  · rw [hx, hx']
    refine InStep.forM (h.entries hxx) fun mixin mixin' hm => .modify fun draft draft' hd => ?_
    refine (hd.addLinks (.cons (.parent hm.2 hs) .nil)).modifyScope index fun scope scope' hsc => ?_
    rw [← hm.1]
    exact { hsc with mixins := hsc.mixins.put mixin.1 hm.2 }
  · rw [hx, hx']
    exact .pure trivial

theorem inStep_linkScope (h : Mirrors R doc doc') (ho : Options.Eased lenient options options')
    (index : Nat) :
    InStep lenient R (fun _ _ => True) (doc.linkScope options index)
      (doc'.linkScope options' index) := by
  refine InStep.bind .get fun draft draft' hd => ?_
  rcases (rel_getElem? hd.queries index).some_or_none with ⟨scope, scope', hx, hx', hs⟩ | ⟨hx, hx'⟩
  · rw [hx, hx']
    refine InStep.bind (.lift (follows_scopeLinks h ho hs)) fun links links' hl => ?_
    exact .modify fun _ _ hd => hd.addLinks hl
  · rw [hx, hx']
    exact .pure trivial

theorem related_openScope (h : Mirrors R doc doc') (hdef : R definition definition')
    (hn : R node node') (hs : R select select') (next : Option Nat) (isMain : Bool)
    {draft draft' : Draft} (hd : Draft.Related R draft draft') :
    Draft.Related R (doc.openScope definition node select next isMain draft)
      (doc'.openScope definition' node' select' next isMain draft') := by
  have hcarrier : R (if isMain then definition else select)
      (if isMain then definition' else select') := by
    split
    · exact hdef
    · exact hs
  unfold openScope
  dsimp only
  rw [← hd.queries.length_eq, h.hasProp_eq hcarrier]
  refine ((hd.addScope ?_).assign hn _).assign hs _
  refine ⟨rfl, hn, hs, .nil, .nil, .nil, ?_, rfl⟩
  cases hp : doc'.hasProp (if isMain then definition' else select') "elements" with
  | true => exact .some hcarrier
  | false => exact .none

theorem inStep_visitSelect (h : Mirrors R doc doc') (hv : VisitsInStep lenient R visit visit')
    (ho : Options.Eased lenient options options') (hdef : R definition definition')
    (hn : R node node') (hs : R select select') (next : Option Nat) (isMain : Bool) :
    InStep lenient R Eq (doc.visitSelect options definition visit node select next isMain)
      (doc'.visitSelect options' definition' visit' node' select' next isMain) := by
  refine InStep.bind .get fun draft draft' hd => ?_
  rw [← hd.queries.length_eq]
  refine InStep.bind (.modify fun _ _ => related_openScope h hdef hn hs next isMain) fun _ _ _ => ?_
  refine InStep.bind (inStep_visitSources h hv _ hs) fun _ _ _ => ?_
  refine InStep.bind (inStep_bindMixins h _ hs) fun _ _ _ => ?_
  refine InStep.bind (inStep_linkScope h ho _) fun _ _ _ => ?_
  refine InStep.bind (InStep.forM (h.expressionEntries hs) fun p p' hp => ?_) fun _ _ _ => .pure rfl
  exact inStep_visitNested h hv _ hp.2

theorem inStep_visitArm (hv : VisitsInStep lenient R visit visit') (next : Option Nat)
    (leading : Nat) {arm arm' : NodeId} (ha : R arm arm') :
    InStep lenient R (fun _ _ => True) (visitArm visit next leading arm)
      (visitArm visit' next leading arm') := by
  refine InStep.bind (hv arm arm' next false ha) ?_
  rintro index _ rfl
  refine .modify fun draft draft' hd => hd.modifyScope index fun scope scope' hs => ?_
  exact { hs with elementsOwner := hs.elementsOwner.orElse (hd.elementsOwner? leading) }

theorem inStep_visitSet (h : Mirrors R doc doc') (hv : VisitsInStep lenient R visit visit')
    {set set' : NodeId} (hn : R node node') (hs : R set set') (next : Option Nat) (isMain : Bool) :
    InStep lenient R Eq (doc.visitSet visit node set next isMain)
      (doc'.visitSet visit' node' set' next isMain) := by
  have hargs := h.propItems hs "args"
  unfold visitSet
  generalize doc.propItems set "args" = args at hargs
  generalize doc'.propItems set' "args" = args' at hargs
  cases hargs with
  | nil => exact inStep_malformed h hn _
  | cons hfirst hrest =>
    refine InStep.bind (hv _ _ next isMain hfirst) ?_
    rintro leading _ rfl
    refine InStep.bind (.modify fun draft draft' hd => ?_) fun _ _ _ =>
      InStep.bind (InStep.forM hrest fun _ _ ha => inStep_visitArm hv next leading ha) fun _ _ _ =>
        .pure rfl
    refine ((hd.assign hn leading).assign hs leading).modifyScope leading fun scope scope' hsc => ?_
    refine { hsc with
      setNodes := List.rel_append hsc.setNodes (.cons hn .nil)
      elementsOwner := hsc.elementsOwner.orElse ?_ }
    rw [h.hasProp_eq hs]
    split
    · exact .some hs
    · exact .none

end Visiting

theorem visitsInStep_visitQuery (h : Mirrors R doc doc')
    (ho : Options.Eased lenient options options') (hdef : R definition definition') (depth : Nat) :
    VisitsInStep lenient R (doc.visitQuery options definition depth)
      (doc'.visitQuery options' definition' depth) := by
  induction depth with
  | zero => exact fun node node' next isMain hn => inStep_malformed h hn _
  | succ depth ih =>
    intro node node' next isMain hn
    unfold visitQuery
    rcases (h.prop? hn "SET").some_or_none with ⟨set, set', hx, hx', hs⟩ | ⟨hx, hx'⟩
    · rw [hx, hx']
      exact inStep_visitSet h ih hn hs next isMain
    rcases (h.prop? hn "SELECT").some_or_none with ⟨sel, sel', hy, hy', hs⟩ | ⟨hy, hy'⟩
    · rw [hx, hx', hy, hy']
      exact inStep_visitSelect h ih ho hdef hn hs next isMain
    · rw [hx, hx', hy, hy']
      exact inStep_malformed h hn _

theorem inStep_visitMain (h : Mirrors R doc doc') (ho : Options.Eased lenient options options')
    (hdef : R definition definition') :
    InStep lenient R (fun _ _ => True) (doc.visitMain options definition)
      (doc'.visitMain options' definition') := by
  have hv := visitsInStep_visitQuery h ho hdef maxQueryNesting
  unfold visitMain
  rcases (h.query? hdef).some_or_none with ⟨query, query', hx, hx', hq⟩ | ⟨hx, hx'⟩
  · rw [hx, hx', h.isProjection_eq hdef]
    dsimp only
    split
    · exact InStep.bind (inStep_visitSelect h hv ho hdef hq hq none true) fun _ _ _ => .pure trivial
    · exact InStep.bind (hv query query' none true hq) fun _ _ _ => .pure trivial
  · rw [hx, hx']
    exact .pure trivial

/-- Over related definitions the second construction follows the first. -/
theorem follows_buildTopology (h : Mirrors R doc doc') (ho : Options.Eased lenient options options')
    (hdef : R definition definition') :
    Follows lenient
      (fun r r' => Topology.Related R r.1 r'.1 ∧ List.Forall₂ (TopologyLink.Related R) r.2 r'.2)
      (doc.buildTopology options definition) (doc'.buildTopology options' definition') := by
  have hstart : Draft.Related R { links := doc.memberLinks definition definition }
      { links := doc'.memberLinks definition' definition' } :=
    ⟨.nil, .nil, forall₂_memberLinks h hdef hdef⟩
  refine (inStep_visitMain h ho hdef _ _ hstart).bind ?_
  rintro ⟨_, draft⟩ ⟨_, draft'⟩ ⟨_, hd⟩
  exact .ok ⟨⟨hdef, hd.queries, hd.queryTable⟩, hd.links⟩

end Document

end SchemaRefs
