import SchemaRefs.Proofs.Containment
import SchemaRefs.Topology.Build

/-!
# The queries directly inside a query

`Document.subqueries select` lists the queries that are visited from a `SELECT`, in order: those
among its sources and in the conditions of its joins, then those inside its expressions. They lie
strictly within the `SELECT` (`within_of_mem_subqueries`) and no two of them have anything in common
(`pairwise_apart_subqueries`).
-/

namespace SchemaRefs

namespace Document

variable {doc : Document} {a b expr item query select top : NodeId}

/-! ## Subtrees without common nodes -/

variable (doc) in
/-- Neither node lies within the other. -/
def Apart (a b : NodeId) : Prop :=
  ¬ doc.Within a b ∧ ¬ doc.Within b a

theorem Apart.not_within {node : NodeId} (h : doc.Apart a b) (ha : doc.Within a node) :
    ¬ doc.Within b node := by
  intro hb
  rcases within_total ha hb with hab | hba
  · exact h.1 hab
  · exact h.2 hba

theorem Apart.descend {x y : NodeId} (h : doc.Apart a b) (hx : doc.Within a x)
    (hy : doc.Within b y) : doc.Apart x y := by
  constructor
  · exact fun hxy => h.not_within (hx.trans hxy) hy
  · exact fun hyx => h.not_within hx (hy.trans hyx)

theorem apart_of_container? {parent : NodeId} (ha : doc.container? a = some parent)
    (hb : doc.container? b = some parent) (hne : a ≠ b) : doc.Apart a b :=
  ⟨fun h => hne (eq_of_within_of_container? ha hb h),
    fun h => hne (eq_of_within_of_container? hb ha h).symm⟩

theorem apart_of_prop? {id : NodeId} {k₁ k₂ : String} (ha : doc.prop? id k₁ = some a)
    (hb : doc.prop? id k₂ = some b) (hne : k₁ ≠ k₂) : doc.Apart a b := by
  refine apart_of_container? (container?_of_prop? ha).1 (container?_of_prop? hb).1 ?_
  rintro rfl
  have := (container?_of_prop? ha).2.symm.trans (container?_of_prop? hb).2
  simp only [Option.some.injEq, Step.key.injEq] at this
  exact hne this

theorem pairwise_itemsAt (id : NodeId) : (doc.itemsAt id).Pairwise doc.Apart := by
  rw [List.pairwise_iff_getElem]
  intro i j hi hj hij
  have h₁ := container?_of_getElem?_itemsAt (List.getElem?_eq_getElem hi)
  have h₂ := container?_of_getElem?_itemsAt (List.getElem?_eq_getElem hj)
  refine apart_of_container? h₁.1 h₂.1 ?_
  intro heq
  rw [heq] at h₁
  have := h₁.2.symm.trans h₂.2
  simp only [Option.some.injEq, Step.index.injEq] at this
  omega

theorem pairwise_propItems (id : NodeId) (key : String) :
    (doc.propItems id key).Pairwise doc.Apart := by
  unfold propItems
  split
  · exact doc.pairwise_itemsAt _
  · exact .nil

theorem pairwise_entries (id : NodeId) :
    (doc.entries id).Pairwise fun a b => a.1 ≠ b.1 ∧ doc.Apart a.2 b.2 := by
  have hd := doc.nodup_keys_entries id
  rw [Table.keys, List.Nodup, List.pairwise_map] at hd
  refine hd.imp_of_mem ?_
  rintro ⟨k₁, a⟩ ⟨k₂, b⟩ ha hb hne
  exact ⟨hne, apart_of_prop? (prop?_of_mem_entries ha) (prop?_of_mem_entries hb) hne⟩

/-- A list of nodes that have nothing in common with each other, all within `top`. -/
def Scattered (doc : Document) (top : NodeId) (nodes : List NodeId) : Prop :=
  (∀ node ∈ nodes, doc.Within top node) ∧ nodes.Pairwise doc.Apart

theorem Scattered.up {nodes : List NodeId} (h : doc.Scattered a nodes)
    (hw : doc.Within top a) : doc.Scattered top nodes :=
  ⟨fun node hn => hw.trans (h.1 node hn), h.2⟩

theorem Scattered.append {xs ys : List NodeId} (hx : doc.Scattered a xs)
    (hy : doc.Scattered b ys) (ha : doc.Within top a) (hb : doc.Within top b)
    (hab : doc.Apart a b) : doc.Scattered top (xs ++ ys) := by
  constructor
  · intro node hn
    rcases List.mem_append.mp hn with hn | hn
    · exact ha.trans (hx.1 node hn)
    · exact hb.trans (hy.1 node hn)
  · refine List.pairwise_append.mpr ⟨hx.2, hy.2, fun x hxm y hym => ?_⟩
    exact hab.descend (hx.1 x hxm) (hy.1 y hym)

theorem Scattered.flatMap {α : Type} {items : List α} {r : α → NodeId} {f : α → List NodeId}
    (hw : ∀ a ∈ items, doc.Within top (r a)) (hp : items.Pairwise fun a b => doc.Apart (r a) (r b))
    (hf : ∀ a ∈ items, doc.Scattered (r a) (f a)) : doc.Scattered top (items.flatMap f) := by
  constructor
  · intro node hn
    obtain ⟨a, ha, hn⟩ := List.mem_flatMap.mp hn
    exact (hw a ha).trans ((hf a ha).1 node hn)
  · refine List.pairwise_flatMap.mpr ⟨fun a ha => (hf a ha).2, ?_⟩
    refine hp.imp_of_mem fun {a b} ha hb hab x hx y hy => ?_
    exact hab.descend ((hf a ha).1 x hx) ((hf b hb).1 y hy)

/-! ## Queries inside expressions -/

theorem queriesBelow_of_isQuery (hq : doc.isQuery expr = true) :
    doc.queriesBelow expr = [expr] := by
  rw [queriesBelow, if_pos hq]

theorem queriesBelow_of_array {items : List NodeId} (hq : ¬ doc.isQuery expr = true)
    (hv : doc.value? expr = some (.array items)) :
    doc.queriesBelow expr = items.flatMap doc.queriesBelow := by
  rw [queriesBelow, if_neg hq]
  split
  · next items' h =>
    obtain rfl : items' = items := by
      rw [hv] at h
      cases h
      rfl
    simp only [List.flatMap_subtype, List.unattach_attach]
  · next props h =>
    rw [hv] at h
    cases h
  · next h _ => exact absurd hv (h items)

/-- The queries below one property of an expression. -/
def queriesBelowProp (doc : Document) (prop : String × NodeId) : List NodeId :=
  if isDollarName prop.1 then [] else doc.queriesBelow prop.2

theorem queriesBelow_of_object {props : List (String × NodeId)}
    (hq : ¬ doc.isQuery expr = true) (hv : doc.value? expr = some (.object props)) :
    doc.queriesBelow expr = props.flatMap doc.queriesBelowProp := by
  rw [queriesBelow, if_neg hq]
  split
  · next items h =>
    rw [hv] at h
    cases h
  · next props' h =>
    obtain rfl : props' = props := by
      rw [hv] at h
      cases h
      rfl
    rw [List.flatMap_subtype (g := doc.queriesBelowProp) (fun _ _ => rfl), List.unattach_attach]
  · next _ h => exact absurd hv (h props)

theorem queriesBelow_of_leaf (hq : ¬ doc.isQuery expr = true)
    (ha : ∀ items, doc.value? expr ≠ some (.array items))
    (ho : ∀ props, doc.value? expr ≠ some (.object props)) : doc.queriesBelow expr = [] := by
  rw [queriesBelow, if_neg hq]
  split
  · next items h => exact absurd h (ha items)
  · next props h => exact absurd h (ho props)
  · rfl

theorem scattered_queriesBelow (expr : NodeId) : doc.Scattered expr (doc.queriesBelow expr) := by
  induction expr using queriesBelow.induct doc with
  | case1 expr hq =>
    rw [queriesBelow_of_isQuery hq]
    exact ⟨fun node hn => List.mem_singleton.mp hn ▸ .refl, List.pairwise_singleton _ _⟩
  | case2 expr hq items hv ih =>
    rw [queriesBelow_of_array hq hv]
    have hitems : doc.itemsAt expr = items := by simp [itemsAt, hv]
    refine Scattered.flatMap (r := id) (fun item hi => ?_) ?_ (fun item hi => ih item hi)
    · exact within_of_container? (container?_of_mem_itemsAt (hitems ▸ hi)).1
    · exact hitems ▸ doc.pairwise_itemsAt expr
  | case3 expr hq props hv ih =>
    rw [queriesBelow_of_object hq hv]
    have hprops : doc.entries expr = props := entries_of_object hv
    refine Scattered.flatMap (r := Prod.snd) (fun prop hi => ?_) ?_ (fun prop hi => ?_)
    · exact within_of_container? (container?_of_mem_entries (hprops ▸ hi)).1
    · exact hprops ▸ (doc.pairwise_entries expr).imp And.right
    · unfold queriesBelowProp
      split
      · exact ⟨by simp, .nil⟩
      · exact ih _ _ hi
  | case4 expr hq ha ho =>
    rw [queriesBelow_of_leaf hq ha ho]
    exact ⟨by simp, .nil⟩

theorem isQuery_of_mem_queriesBelow (h : query ∈ doc.queriesBelow expr) :
    doc.isQuery query = true := by
  induction expr using queriesBelow.induct doc with
  | case1 expr hq =>
    rw [queriesBelow_of_isQuery hq] at h
    exact List.mem_singleton.mp h ▸ hq
  | case2 expr hq items hv ih =>
    rw [queriesBelow_of_array hq hv] at h
    obtain ⟨item, hi, h⟩ := List.mem_flatMap.mp h
    exact ih item hi h
  | case3 expr hq props hv ih =>
    rw [queriesBelow_of_object hq hv] at h
    obtain ⟨⟨key, child⟩, hi, h⟩ := List.mem_flatMap.mp h
    unfold queriesBelowProp at h
    split at h
    · cases h
    · exact ih key child hi h
  | case4 expr hq ha ho =>
    rw [queriesBelow_of_leaf hq ha ho] at h
    cases h

/-! ## Queries among the sources -/

variable (doc) in
/-- The queries that are visited for a leaf of the sources. -/
def leafQueries : SourceItem → List NodeId
  | .query item => [item]
  | .condition expr => doc.queriesBelow expr
  | _ => []

variable (doc) in
/-- The queries that are visited for the sources of a query. -/
def sourceQueries (source : NodeId) : List NodeId :=
  (doc.sourceItems source).flatMap doc.leafQueries

theorem sourceItems_of_join (hr : doc.refPath? item = none)
    (hj : doc.hasProp item "join" = true) (he : ¬ (doc.propItems item "args").isEmpty = true) :
    doc.sourceItems item = (doc.propItems item "args").flatMap doc.sourceItems ++
      match doc.prop? item "on" with
      | some expr => [.condition expr]
      | none => [] := by
  rw [sourceItems]
  cases doc.prop? item "on" with
  | none => simp only [hr, hj, if_true, if_neg he, List.flatMap_subtype, List.unattach_attach]
  | some expr => simp only [hr, hj, if_true, if_neg he, List.flatMap_subtype, List.unattach_attach]

/-- A source that is no join is a leaf. -/
theorem sourceItems_leaf (h : doc.refPath? item = none →
      doc.hasProp item "join" = true → (doc.propItems item "args").isEmpty = true) :
    ∃ leaf, doc.sourceItems item = [leaf] ∧
      (doc.leafQueries leaf = [] ∨ (doc.leafQueries leaf = [item] ∧ doc.isQuery item = true)) := by
  rw [sourceItems]
  split
  · split
    · exact ⟨_, rfl, .inl rfl⟩
    · exact ⟨_, rfl, .inl rfl⟩
  · next hr =>
    split
    · next hj => exact ⟨_, if_pos (h hr hj), .inl rfl⟩
    · split
      · next hq => exact ⟨_, rfl, .inr ⟨rfl, hq⟩⟩
      · exact ⟨_, rfl, .inl rfl⟩

theorem scattered_leaf {leaf : SourceItem} (hs : doc.sourceItems item = [leaf])
    (hl : doc.leafQueries leaf = [] ∨ doc.leafQueries leaf = [item]) :
    doc.Scattered item (doc.sourceQueries item) := by
  rw [sourceQueries, hs, List.flatMap_singleton]
  rcases hl with h | h
  · rw [h]
    exact ⟨by simp, .nil⟩
  · rw [h]
    exact ⟨fun node hn => List.mem_singleton.mp hn ▸ .refl, List.pairwise_singleton _ _⟩

/-- Sources are leaves, or joins of sources. -/
theorem source_induction (doc : Document) {P : NodeId → Prop}
    (leaf : ∀ item, (doc.refPath? item = none → doc.hasProp item "join" = true →
      (doc.propItems item "args").isEmpty = true) → P item)
    (join : ∀ item, doc.refPath? item = none → doc.hasProp item "join" = true →
      ¬ (doc.propItems item "args").isEmpty = true → (∀ arg ∈ doc.propItems item "args", P arg) →
      P item) (source : NodeId) : P source := by
  induction source using sourceItems.induct doc with
  | case1 item path hr => exact leaf item fun h => by rw [hr] at h; cases h
  | case2 item path hr => exact leaf item fun h => by rw [hr] at h; cases h
  | case3 item hr hj he => exact leaf item fun _ _ => he
  | case4 item hr hj he ih => exact join item hr hj he ih
  | case5 item hr hj => exact leaf item fun _ h => absurd h hj
  | case6 item hr hj => exact leaf item fun _ h => absurd h hj

/-- The queries among the sources of a join are those of what it joins, and those in its
condition. -/
theorem mem_sourceQueries_of_join {source : NodeId} (hr : doc.refPath? source = none)
    (hj : doc.hasProp source "join" = true) (he : ¬ (doc.propItems source "args").isEmpty = true) :
    query ∈ doc.sourceQueries source ↔
      (∃ arg ∈ doc.propItems source "args", query ∈ doc.sourceQueries arg) ∨
        ∃ condition, doc.prop? source "on" = some condition ∧
        query ∈ doc.queriesBelow condition := by
  rw [sourceQueries, sourceItems_of_join hr hj he, List.flatMap_append, List.mem_append,
    List.flatMap_assoc, List.mem_flatMap]
  refine or_congr Iff.rfl ?_
  cases doc.prop? source "on" with
  | none => simp
  | some condition => simp [leafQueries]

theorem scattered_sourceQueries (source : NodeId) :
    doc.Scattered source (doc.sourceQueries source) := by
  induction source using source_induction doc with
  | leaf item h =>
    obtain ⟨leaf, hs, hl⟩ := sourceItems_leaf h
    exact scattered_leaf hs (hl.imp_right And.left)
  | join item hr hj he ih =>
    obtain ⟨list, hlist⟩ : ∃ list, doc.prop? item "args" = some list := by
      cases hl : doc.prop? item "args" with
      | none => simp [propItems, hl] at he
      | some list => exact ⟨list, rfl⟩
    have hitems : doc.propItems item "args" = doc.itemsAt list := by simp [propItems, hlist]
    rw [sourceQueries, sourceItems_of_join hr hj he, List.flatMap_append, List.flatMap_assoc]
    rw [hitems] at ih ⊢
    have hargs : doc.Scattered list
        ((doc.itemsAt list).flatMap fun arg => (doc.sourceItems arg).flatMap doc.leafQueries) :=
      Scattered.flatMap (r := id)
        (fun arg ha => within_of_container? (container?_of_mem_itemsAt ha).1)
        (doc.pairwise_itemsAt list) ih
    have hin : doc.Within item list := within_of_container? (container?_of_prop? hlist).1
    split
    · next expr hon =>
      refine hargs.append ?_ hin (within_of_container? (container?_of_prop? hon).1)
        (apart_of_prop? hlist hon (by decide))
      rw [List.flatMap_singleton]
      exact scattered_queriesBelow expr
    · rw [List.flatMap_nil, List.append_nil]
      exact hargs.up hin

theorem isQuery_of_mem_sourceQueries {source : NodeId} (h : query ∈ doc.sourceQueries source) :
    doc.isQuery query = true := by
  induction source using source_induction doc with
  | leaf item hi =>
    obtain ⟨leaf, hs, hl⟩ := sourceItems_leaf hi
    rw [sourceQueries, hs, List.flatMap_singleton] at h
    rcases hl with hl | ⟨hl, hq⟩
    · rw [hl] at h
      cases h
    · rw [hl] at h
      exact List.mem_singleton.mp h ▸ hq
  | join item hr hj he ih =>
    rcases (mem_sourceQueries_of_join hr hj he).mp h with ⟨arg, ha, h⟩ | ⟨condition, _, h⟩
    · exact ih arg ha h
    · exact isQuery_of_mem_queriesBelow h

/-! ## All queries directly inside a `SELECT` -/

variable (doc) in
/-- The queries among the sources of a `SELECT`. -/
def fromQueries (select : NodeId) : List NodeId :=
  ((doc.prop? select "from").map doc.sourceQueries).getD []

variable (doc) in
/-- The queries inside the expressions of a `SELECT`. -/
def expressionQueries (select : NodeId) : List NodeId :=
  (doc.expressionEntries select).flatMap fun prop => doc.queriesBelow prop.2

variable (doc) in
/-- The queries that are visited from a `SELECT`, in order. -/
def subqueries (select : NodeId) : List NodeId :=
  doc.fromQueries select ++ doc.expressionQueries select

theorem mem_expressionEntries {prop : String × NodeId} (h : prop ∈ doc.expressionEntries select) :
    prop ∈ doc.entries select ∧ isExpressionKey prop.1 = true :=
  List.mem_filter.mp h

theorem pairwise_apart_subqueries (select : NodeId) :
    (doc.subqueries select).Pairwise doc.Apart := by
  refine List.pairwise_append.mpr ⟨?_, ?_, ?_⟩
  · unfold fromQueries
    cases doc.prop? select "from" with
    | none => exact .nil
    | some source => exact (scattered_sourceQueries source).2
  · have : doc.Scattered select (doc.expressionQueries select) :=
      Scattered.flatMap (r := Prod.snd)
        (fun prop hp =>
          within_of_container? (container?_of_mem_entries (mem_expressionEntries hp).1).1)
        (((doc.pairwise_entries select).imp And.right).filter _)
        (fun prop _ => scattered_queriesBelow prop.2)
    exact this.2
  · intro x hx y hy
    unfold fromQueries at hx
    cases hf : doc.prop? select "from" with
    | none => simp [hf] at hx
    | some source =>
      rw [hf] at hx
      obtain ⟨⟨key, expr⟩, hp, hy⟩ := List.mem_flatMap.mp hy
      have he := mem_expressionEntries hp
      have hne : "from" ≠ key := by
        rintro rfl
        exact absurd he.2 (show ¬ isExpressionKey "from" = true by decide)
      exact (apart_of_prop? hf (prop?_of_mem_entries he.1) hne).descend
        ((scattered_sourceQueries source).1 x hx) ((scattered_queriesBelow expr).1 y hy)

/-- The properties of a `SELECT` below which queries are visited. -/
def isSearchedKey (key : String) : Bool :=
  key == "from" || isExpressionKey key

/-- A query directly inside a `SELECT` lies below one of the properties that are searched. -/
theorem exists_prop?_of_mem_subqueries (h : query ∈ doc.subqueries select) :
    ∃ key prop, isSearchedKey key = true ∧ doc.prop? select key = some prop ∧
    doc.Within prop query := by
  rcases List.mem_append.mp h with h | h
  · unfold fromQueries at h
    cases hf : doc.prop? select "from" with
    | none => simp [hf] at h
    | some source =>
      rw [hf] at h
      exact ⟨"from", source, rfl, hf, (scattered_sourceQueries source).1 query h⟩
  · obtain ⟨⟨key, expr⟩, hp, hq⟩ := List.mem_flatMap.mp h
    obtain ⟨hentry, hkey⟩ := mem_expressionEntries hp
    exact ⟨key, expr, by simp [isSearchedKey, hkey], prop?_of_mem_entries hentry,
      (scattered_queriesBelow expr).1 query hq⟩

theorem isQuery_of_mem_subqueries (h : query ∈ doc.subqueries select) :
    doc.isQuery query = true := by
  rcases List.mem_append.mp h with h | h
  · unfold fromQueries at h
    cases hf : doc.prop? select "from" with
    | none => simp [hf] at h
    | some source =>
      rw [hf] at h
      exact isQuery_of_mem_sourceQueries h
  · obtain ⟨prop, _, hq⟩ := List.mem_flatMap.mp h
    exact isQuery_of_mem_queriesBelow hq

theorem within_of_mem_subqueries (h : query ∈ doc.subqueries select) :
    doc.Within select query ∧ select ≠ query := by
  obtain ⟨key, prop, _, hp, hw⟩ := exists_prop?_of_mem_subqueries h
  have hlt : select < query := Nat.lt_of_lt_of_le (prop?_lt hp).1 hw.le
  exact ⟨(within_of_container? (container?_of_prop? hp).1).trans hw, Nat.ne_of_lt hlt⟩

end Document

end SchemaRefs
