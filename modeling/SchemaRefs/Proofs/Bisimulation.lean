import Mathlib.Data.List.Forall2
import SchemaRefs.Proofs.Subqueries

/-!
# Documents that mirror each other

A relation between the nodes of two documents mirrors them when related nodes have the same payload
up to the handles of their children, which are related again (`Document.Mirrors`). Whatever a walk
downwards from a node reads is then the same on both sides: names, texts, flags and locations are
equal, and nodes, properties and items are related one by one. The second half says so for the four
walks behind a topology: the parents of members (`forall₂_memberLinks`), the leaves of the sources
(`forall₂_sourceItems`), the queries inside an expression (`forall₂_queriesBelow`) and the names of
columns (`columnKey_eq`).
-/

namespace Option.Rel

variable {α β γ δ : Type} {r : α → β → Prop} {s : γ → δ → Prop} {x : Option α} {y : Option β}

theorem some_or_none (h : Option.Rel r x y) :
    (∃ a b, x = .some a ∧ y = .some b ∧ r a b) ∨ (x = .none ∧ y = .none) := by
  cases h with
  | some hab => exact .inl ⟨_, _, rfl, rfl, hab⟩
  | none => exact .inr ⟨rfl, rfl⟩

theorem isSome_eq (h : Option.Rel r x y) : x.isSome = y.isSome := by
  cases h <;> rfl

theorem bind_eq {f : α → Option γ} {g : β → Option γ} (h : Option.Rel r x y)
    (hf : ∀ a b, r a b → f a = g b) : x.bind f = y.bind g := by
  cases h with
  | some hab => exact hf _ _ hab
  | none => rfl

theorem bind {f : α → Option γ} {g : β → Option δ} (h : Option.Rel r x y)
    (hf : ∀ a b, r a b → Option.Rel s (f a) (g b)) : Option.Rel s (x.bind f) (y.bind g) := by
  cases h with
  | some hab => exact hf _ _ hab
  | none => exact .none

theorem orElse {x' : Option α} {y' : Option β} (h : Option.Rel r x y) (h' : Option.Rel r x' y') :
    Option.Rel r (x <|> x') (y <|> y') := by
  cases h with
  | some hab => exact .some hab
  | none => exact h'

theorem filter {p : α → Bool} {q : β → Bool} (h : Option.Rel r x y)
    (hp : ∀ a b, r a b → p a = q b) :
    Option.Rel r (x.filter p) (y.filter q) := by
  cases h with
  | none => exact .none
  | some hab =>
    rw [Option.filter_some, Option.filter_some, hp _ _ hab]
    split
    · exact .some hab
    · exact .none

theorem mono {r' : α → β → Prop} (h : Option.Rel r x y) (hr : ∀ a b, r a b → r' a b) :
    Option.Rel r' x y := by
  cases h with
  | some hab => exact .some (hr _ _ hab)
  | none => exact .none

theorem eq_of_eq {x y : Option α} (h : Option.Rel Eq x y) : x = y := by
  cases h with
  | some hab => rw [hab]
  | none => rfl

end Option.Rel

namespace SchemaRefs

/-! ## Related lists -/

section Lists

variable {α β γ δ : Type} {r : α → β → Prop} {s : γ → δ → Prop}

theorem forall₂_flatMap {xs : List α} {ys : List β} {f : α → List γ} {g : β → List δ}
    (h : List.Forall₂ r xs ys) (hf : ∀ a b, a ∈ xs → r a b → List.Forall₂ s (f a) (g b)) :
    List.Forall₂ s (xs.flatMap f) (ys.flatMap g) := by
  induction h with
  | nil => exact .nil
  | cons hab _ ih =>
    rw [List.flatMap_cons, List.flatMap_cons]
    refine List.rel_append (hf _ _ List.mem_cons_self hab) (ih fun a b ha => ?_)
    exact hf a b (List.mem_cons_of_mem _ ha)

theorem eq_of_forall₂ {r : α → α → Prop} {xs ys : List α} (h : List.Forall₂ r xs ys)
    (hr : ∀ a b, r a b → a = b) : xs = ys := by
  rw [← List.forall₂_eq_eq_eq]
  exact h.imp hr

theorem rel_getElem? {xs : List α} {ys : List β} (h : List.Forall₂ r xs ys) (i : Nat) :
    Option.Rel r xs[i]? ys[i]? := by
  induction h generalizing i with
  | nil => exact .none
  | cons hab _ ih =>
    cases i with
    | zero => exact .some hab
    | succ i => exact ih i

theorem rel_getLast? {xs : List α} {ys : List β} (h : List.Forall₂ r xs ys) :
    Option.Rel r xs.getLast? ys.getLast? := by
  rw [List.getLast?_eq_getElem?, List.getLast?_eq_getElem?, h.length_eq]
  exact rel_getElem? h _

theorem any_eq_of_forall₂ {xs : List α} {ys : List β} {p : α → Bool} {q : β → Bool}
    (h : List.Forall₂ r xs ys) (hp : ∀ a b, r a b → p a = q b) : xs.any p = ys.any q := by
  induction h with
  | nil => rfl
  | cons hab _ ih => rw [List.any_cons, List.any_cons, hp _ _ hab, ih]

theorem forall₂_zipIdx {xs : List α} {ys : List β} (h : List.Forall₂ r xs ys) (n : Nat) :
    List.Forall₂ (fun p q => r p.1 q.1 ∧ p.2 = q.2) (xs.zipIdx n) (ys.zipIdx n) := by
  induction h generalizing n with
  | nil => exact .nil
  | cons hab _ ih => exact .cons ⟨hab, rfl⟩ (ih (n + 1))

end Lists

namespace Table

variable {α β : Type} {r : α → β → Prop} {table : List (String × α)} {table' : List (String × β)}

/-- The tables have the same keys in the same order, with related values. -/
abbrev Related (r : α → β → Prop) : List (String × α) → List (String × β) → Prop :=
  List.Forall₂ fun p q => p.1 = q.1 ∧ r p.2 q.2

theorem Related.get? (h : Related r table table') (key : String) :
    Option.Rel r (Table.get? table key) (Table.get? table' key) := by
  induction h with
  | nil => exact .none
  | @cons p q _ _ hpq _ ih =>
    obtain ⟨k, v⟩ := p
    obtain ⟨k', v'⟩ := q
    obtain ⟨rfl, hv⟩ : k = k' ∧ r v v' := hpq
    rw [get?_cons, get?_cons]
    split
    · exact .some hv
    · exact ih

theorem Related.put (h : Related r table table') (key : String) {value : α} {value' : β}
    (hv : r value value') :
    Related r (Table.put table key value) (Table.put table' key value') := by
  induction h with
  | nil => exact .cons ⟨rfl, hv⟩ .nil
  | @cons p q _ _ hpq hrest ih =>
    obtain ⟨k, v⟩ := p
    obtain ⟨k', v'⟩ := q
    obtain ⟨rfl, hold⟩ : k = k' ∧ r v v' := hpq
    unfold Table.put
    split
    · exact .cons ⟨rfl, hv⟩ hrest
    · exact .cons ⟨rfl, hold⟩ ih

end Table

/-! ## Related payloads and leaves of sources -/

/-- The payloads are the same up to the handles of their children. -/
inductive NodeValue.Related (R : NodeId → NodeId → Prop) : NodeValue → NodeValue → Prop where
  | null : Related R .null .null
  | bool (b : Bool) : Related R (.bool b) (.bool b)
  | number (n : Number) : Related R (.number n) (.number n)
  | string (s : String) : Related R (.string s) (.string s)
  | array {items items' : List NodeId} : List.Forall₂ R items items' →
      Related R (.array items) (.array items')
  | object {props props' : List (String × NodeId)} : Table.Related R props props' →
      Related R (.object props) (.object props')

/-- The leaves are the same up to handles. -/
inductive SourceItem.Related (R : NodeId → NodeId → Prop) : SourceItem → SourceItem → Prop where
  | path {item item' : NodeId} (name : String) : R item item' →
      Related R (.path item name) (.path item' name)
  | query {item item' : NodeId} : R item item' → Related R (.query item) (.query item')
  | condition {expr expr' : NodeId} : R expr expr' → Related R (.condition expr) (.condition expr')
  | fault {item item' : NodeId} (fault : SourceFault) : R item item' →
      Related R (.fault item fault) (.fault item' fault)

/-- The links are the same up to handles. -/
inductive TopologyLink.Related (R : NodeId → NodeId → Prop) :
    TopologyLink → TopologyLink → Prop where
  | parent {member member' parent parent' : NodeId} : R member member' → R parent parent' →
      Related R (.parent member parent) (.parent member' parent')
  | column {column column' element element' : NodeId} : R column column' → R element element' →
      Related R (.column column element) (.column column' element')

namespace Document

/-- Related nodes have the same payload, with related children. -/
def Mirrors (R : NodeId → NodeId → Prop) (doc doc' : Document) : Prop :=
  ∀ a b, R a b → Option.Rel (NodeValue.Related R) (doc.value? a) (doc'.value? b)

/-- Every document mirrors itself. -/
theorem mirrors_eq (doc : Document) : Mirrors Eq doc doc := by
  rintro a _ rfl
  cases doc.value? a with
  | none => exact .none
  | some value =>
    refine .some ?_
    cases value with
    | null => exact .null
    | bool b => exact .bool b
    | number n => exact .number n
    | string s => exact .string s
    | array items => exact .array (List.forall₂_same.mpr fun _ _ => rfl)
    | object props => exact .object (List.forall₂_same.mpr fun _ _ => ⟨rfl, rfl⟩)

variable {R : NodeId → NodeId → Prop} {doc doc' : Document}

variable (doc) in
/-- The properties of an object property; nothing when there is none. -/
def propEntries (id : NodeId) (key : String) : List (String × NodeId) :=
  (doc.prop? id key).elim [] doc.entries

namespace Mirrors

/-! ## What a node holds -/

section Accessors

variable {a b : NodeId}

theorem entries (h : Mirrors R doc doc') (hab : R a b) :
    Table.Related R (doc.entries a) (doc'.entries b) := by
  unfold Document.entries
  rcases (h a b hab).some_or_none with ⟨x, y, hx, hy, hxy⟩ | ⟨hx, hy⟩
  · rw [hx, hy]
    cases hxy with
    | object hprops => exact hprops
    | _ => exact .nil
  · rw [hx, hy]
    exact .nil

theorem itemsAt (h : Mirrors R doc doc') (hab : R a b) :
    List.Forall₂ R (doc.itemsAt a) (doc'.itemsAt b) := by
  unfold Document.itemsAt
  rcases (h a b hab).some_or_none with ⟨x, y, hx, hy, hxy⟩ | ⟨hx, hy⟩
  · rw [hx, hy]
    cases hxy with
    | array hitems => exact hitems
    | _ => exact .nil
  · rw [hx, hy]
    exact .nil

theorem isObject_eq (h : Mirrors R doc doc') (hab : R a b) : doc.isObject a = doc'.isObject b := by
  unfold Document.isObject
  rcases (h a b hab).some_or_none with ⟨x, y, hx, hy, hxy⟩ | ⟨hx, hy⟩
  · rw [hx, hy]
    cases hxy <;> rfl
  · rw [hx, hy]

theorem isArray_eq (h : Mirrors R doc doc') (hab : R a b) : doc.isArray a = doc'.isArray b := by
  unfold Document.isArray
  rcases (h a b hab).some_or_none with ⟨x, y, hx, hy, hxy⟩ | ⟨hx, hy⟩
  · rw [hx, hy]
    cases hxy <;> rfl
  · rw [hx, hy]

theorem string?_eq (h : Mirrors R doc doc') (hab : R a b) : doc.string? a = doc'.string? b := by
  unfold Document.string?
  rcases (h a b hab).some_or_none with ⟨x, y, hx, hy, hxy⟩ | ⟨hx, hy⟩
  · rw [hx, hy]
    cases hxy <;> rfl
  · rw [hx, hy]

theorem prop? (h : Mirrors R doc doc') (hab : R a b) (key : String) :
    Option.Rel R (doc.prop? a key) (doc'.prop? b key) := by
  rw [← get?_entries, ← get?_entries]
  exact (h.entries hab).get? key

theorem hasProp_eq (h : Mirrors R doc doc') (hab : R a b) (key : String) :
    doc.hasProp a key = doc'.hasProp b key :=
  (h.prop? hab key).isSome_eq

theorem objectProp? (h : Mirrors R doc doc') (hab : R a b) (key : String) :
    Option.Rel R (doc.objectProp? a key) (doc'.objectProp? b key) :=
  (h.prop? hab key).filter fun _ _ => h.isObject_eq

theorem stringProp?_eq (h : Mirrors R doc doc') (hab : R a b) (key : String) :
    doc.stringProp? a key = doc'.stringProp? b key :=
  (h.prop? hab key).bind_eq fun _ _ => h.string?_eq

theorem propItems (h : Mirrors R doc doc') (hab : R a b) (key : String) :
    List.Forall₂ R (doc.propItems a key) (doc'.propItems b key) := by
  unfold Document.propItems
  rcases (h.prop? hab key).some_or_none with ⟨x, y, hx, hy, hxy⟩ | ⟨hx, hy⟩
  · rw [hx, hy]
    exact h.itemsAt hxy
  · rw [hx, hy]
    exact .nil

theorem numberProp?_eq (h : Mirrors R doc doc') (hab : R a b) (key : String) :
    doc.numberProp? a key = doc'.numberProp? b key := by
  have hv := (h.prop? hab key).bind h
  unfold Document.numberProp?
  rcases hv.some_or_none with ⟨x, y, hx, hy, hxy⟩ | ⟨hx, hy⟩
  · rw [hx, hy]
    cases hxy <;> rfl
  · rw [hx, hy]

theorem propEntries (h : Mirrors R doc doc') (hab : R a b) (key : String) :
    Table.Related R (doc.propEntries a key) (doc'.propEntries b key) := by
  unfold Document.propEntries
  rcases (h.prop? hab key).some_or_none with ⟨x, y, hx, hy, hxy⟩ | ⟨hx, hy⟩
  · rw [hx, hy]
    exact h.entries hxy
  · rw [hx, hy]
    exact .nil

theorem location?_eq (h : Mirrors R doc doc') (hab : R a b) :
    doc.location? a = doc'.location? b := by
  refine (h.prop? hab "$location").bind_eq fun place place' hplace => ?_
  simp only [h.stringProp?_eq hplace, h.numberProp?_eq hplace]

theorem malformedAt_eq (h : Mirrors R doc doc') (hab : R a b) (message : String) :
    doc.malformedAt a message = doc'.malformedAt b message :=
  congrArg _ (h.location?_eq hab)

/-! ## Queries, columns and references -/

theorem isQuery_eq (h : Mirrors R doc doc') (hab : R a b) : doc.isQuery a = doc'.isQuery b := by
  unfold Document.isQuery
  rw [h.hasProp_eq hab, h.hasProp_eq hab]

theorem query? (h : Mirrors R doc doc') (hab : R a b) :
    Option.Rel R (doc.query? a) (doc'.query? b) :=
  (h.prop? hab _).orElse (h.prop? hab _)

theorem isProjection_eq (h : Mirrors R doc doc') (hab : R a b) :
    doc.isProjection a = doc'.isProjection b := by
  unfold Document.isProjection
  rw [h.hasProp_eq hab, h.hasProp_eq hab]

theorem expressionEntries (h : Mirrors R doc doc') (hab : R a b) :
    Table.Related R (doc.expressionEntries a) (doc'.expressionEntries b) := by
  refine List.rel_filter ?_ (h.entries hab)
  rintro ⟨key, child⟩ ⟨key', child'⟩ ⟨hkey, _⟩
  obtain rfl : key = key' := hkey
  exact Iff.rfl

theorem refPath? (h : Mirrors R doc doc') (hab : R a b) :
    Option.Rel R (doc.refPath? a) (doc'.refPath? b) :=
  (h.prop? hab _).filter fun _ _ => h.isArray_eq

theorem segmentName?_eq (h : Mirrors R doc doc') (hab : R a b) :
    doc.segmentName? a = doc'.segmentName? b := by
  unfold Document.segmentName?
  rw [h.string?_eq hab, h.stringProp?_eq hab]

theorem lastName?_eq (h : Mirrors R doc doc') (hab : R a b) : doc.lastName? a = doc'.lastName? b :=
  (rel_getLast? (h.itemsAt hab)).bind_eq fun _ _ => h.segmentName?_eq

theorem implicitAlias?_eq (h : Mirrors R doc doc') (hab : R a b) :
    doc.implicitAlias? a = doc'.implicitAlias? b :=
  congrArg _ (h.lastName?_eq hab)

theorem columnName?_eq (h : Mirrors R doc doc') (hab : R a b) :
    doc.columnName? a = doc'.columnName? b := by
  unfold Document.columnName?
  rw [h.stringProp?_eq hab, (h.refPath? hab).bind_eq fun _ _ => h.lastName?_eq]

theorem isWildcard_eq (h : Mirrors R doc doc') (hab : R a b) :
    doc.isWildcard a = doc'.isWildcard b := by
  unfold Document.isWildcard
  rw [h.string?_eq hab]

theorem expandedElements? (h : Mirrors R doc doc') (hab : R a b) :
    Option.Rel R (doc.expandedElements? a) (doc'.expandedElements? b) :=
  (h.prop? hab _).orElse ((h.prop? hab _).bind fun _ _ hitems => h.prop? hitems _)

theorem columnKey_eq (h : Mirrors R doc doc') {elements elements' : NodeId}
    (he : R elements elements') (hab : R a b) (start : String) (number position : Nat)
    (wildcard : Bool) :
    doc.columnKey elements start number position a wildcard =
      doc'.columnKey elements' start number position b wildcard := by
  unfold Document.columnKey
  rw [h.columnName?_eq hab]
  rcases (rel_getElem? (h.entries he) position).some_or_none with
    ⟨⟨name, node⟩, ⟨name', node'⟩, hx, hy, hname, _⟩ | ⟨hx, hy⟩
  · obtain rfl : name = name' := hname
    rw [hx, hy]
  · rw [hx, hy]

end Accessors

end Mirrors

/-! ## Walks downwards -/

theorem mem_propEntries {id : NodeId} {key : String} {entry : String × NodeId}
    (h : entry ∈ doc.propEntries id key) :
    ∃ map, doc.prop? id key = some map ∧ entry ∈ doc.entries map := by
  unfold propEntries at h
  cases hp : doc.prop? id key with
  | none => rw [hp] at h; cases h
  | some map => rw [hp] at h; exact ⟨map, rfl, h⟩

variable (doc) in
/-- The links of a member and of all that is declared below it. -/
def linksOfMember (parent : NodeId) (entry : String × NodeId) : List TopologyLink :=
  .parent entry.2 parent :: doc.memberLinks entry.2 entry.2

variable (doc) in
/-- The links below a part of a node; `top` is the parent of the direct members of that part. -/
def linksOfPart (owner : NodeId) (key : String) (top : NodeId → NodeId) : List TopologyLink :=
  (doc.objectProp? owner key).elim [] fun part => doc.memberLinks part (top part)

theorem memberLinks_eq (owner parent : NodeId) :
    doc.memberLinks owner parent =
      (memberKeys.flatMap fun key =>
          (doc.propEntries owner key).flatMap (doc.linksOfMember parent)) ++
        doc.linksOfPart owner "items" (fun _ => parent) ++
        doc.linksOfPart owner "targetAspect" id ++ doc.linksOfPart owner "returns" id := by
  rw [memberLinks]
  congr 1
  · congr 1
    · congr 1
      · congr 1
        funext key
        unfold propEntries
        cases doc.prop? owner key with
        | none => rfl
        | some map =>
          refine (List.flatMap_subtype (g := doc.linksOfMember parent) fun _ _ => rfl).trans ?_
          rw [List.unattach_attach]
          rfl
      · unfold linksOfPart
        cases doc.objectProp? owner "items" <;> rfl
    · unfold linksOfPart
      cases doc.objectProp? owner "targetAspect" <;> rfl
  · unfold linksOfPart
    cases doc.objectProp? owner "returns" <;> rfl

theorem forall₂_memberLinks (h : Mirrors R doc doc') {owner owner' top top' : NodeId}
    (ho : R owner owner') (ht : R top top') :
    List.Forall₂ (TopologyLink.Related R) (doc.memberLinks owner top)
      (doc'.memberLinks owner' top') := by
  induction owner using descending_induction doc generalizing owner' top top' with
  | step owner ih =>
    rw [memberLinks_eq, memberLinks_eq]
    have hmembers : ∀ key, List.Forall₂ (TopologyLink.Related R)
        ((doc.propEntries owner key).flatMap (doc.linksOfMember top))
        ((doc'.propEntries owner' key).flatMap (doc'.linksOfMember top')) := by
      intro key
      refine forall₂_flatMap (h.propEntries ho key) ?_
      rintro ⟨name, member⟩ ⟨name', member'⟩ hmem ⟨_, hm⟩
      obtain ⟨map, hmap, hentry⟩ := mem_propEntries hmem
      have h₁ := prop?_lt hmap
      have h₂ := lt_of_mem_entries hentry
      exact .cons (.parent hm ht) (ih member (Nat.lt_trans h₁.1 h₂.1) h₂.2 hm hm)
    have hparts : ∀ (key : String) (f f' : NodeId → NodeId),
        (∀ part part', R part part' → R (f part) (f' part')) → List.Forall₂ (TopologyLink.Related R)
          (doc.linksOfPart owner key f) (doc'.linksOfPart owner' key f') := by
      intro key f f' hf
      unfold linksOfPart
      rcases (h.objectProp? ho key).some_or_none with ⟨part, part', hx, hy, hpart⟩ | ⟨hx, hy⟩
      · have hlt := prop?_lt (Option.eq_some_of_filter_eq_some hx)
        rw [hx, hy]
        exact ih part hlt.1 hlt.2 hpart (hf _ _ hpart)
      · rw [hx, hy]
        exact .nil
    refine List.rel_append (List.rel_append (List.rel_append ?_ ?_) ?_) ?_
    · exact forall₂_flatMap (List.forall₂_same.mpr fun key _ => rfl) fun key _ _ hk =>
        hk ▸ hmembers key
    · exact hparts "items" _ _ fun _ _ _ => ht
    · exact hparts "targetAspect" _ _ fun _ _ hp => hp
    · exact hparts "returns" _ _ fun _ _ hp => hp

theorem forall₂_queriesBelow (h : Mirrors R doc doc') {expr expr' : NodeId} (he : R expr expr') :
    List.Forall₂ R (doc.queriesBelow expr) (doc'.queriesBelow expr') := by
  induction expr using descending_induction doc generalizing expr' with
  | step expr ih =>
    by_cases hq : doc.isQuery expr = true
    · have hq' : doc'.isQuery expr' = true := h.isQuery_eq he ▸ hq
      rw [queriesBelow_of_isQuery hq, queriesBelow_of_isQuery hq']
      exact .cons he .nil
    have hq' : ¬ doc'.isQuery expr' = true := h.isQuery_eq he ▸ hq
    rcases (h expr expr' he).some_or_none with ⟨value, value', hv, hv', hr⟩ | ⟨hv, hv'⟩
    · cases hr with
      | array hitems =>
        rw [queriesBelow_of_array hq hv, queriesBelow_of_array hq' hv']
        refine forall₂_flatMap hitems fun item item' hmem hi => ?_
        have hlt := lt_of_mem_children hv hmem
        exact ih item hlt.1 hlt.2 hi
      | object hprops =>
        rw [queriesBelow_of_object hq hv, queriesBelow_of_object hq' hv']
        refine forall₂_flatMap hprops ?_
        rintro ⟨key, child⟩ ⟨key', child'⟩ hmem ⟨hk, hc⟩
        obtain rfl : key = key' := hk
        have hlt := lt_of_mem_children hv (List.mem_map.mpr ⟨_, hmem, rfl⟩)
        unfold queriesBelowProp
        split
        · exact .nil
        · exact ih child hlt.1 hlt.2 hc
      | _ =>
        rw [queriesBelow_of_leaf hq (by simp [hv]) (by simp [hv]),
          queriesBelow_of_leaf hq' (by simp [hv']) (by simp [hv'])]
        exact .nil
    · rw [queriesBelow_of_leaf hq (by simp [hv]) (by simp [hv]),
        queriesBelow_of_leaf hq' (by simp [hv']) (by simp [hv'])]
      exact .nil

theorem forall₂_sourceItems (h : Mirrors R doc doc') {item item' : NodeId} (hi : R item item') :
    List.Forall₂ (SourceItem.Related R) (doc.sourceItems item) (doc'.sourceItems item') := by
  induction item using descending_induction doc generalizing item' with
  | step item ih =>
    have hone : ∀ leaf leaf', SourceItem.Related R leaf leaf' →
        List.Forall₂ (SourceItem.Related R) [leaf] [leaf'] := fun _ _ hl => .cons hl .nil
    rcases (h.refPath? hi).some_or_none with ⟨path, path', hp, hp', hpath⟩ | ⟨hr, hr'⟩
    · rw [sourceItems, sourceItems, hp, hp']
      dsimp only
      rw [h.stringProp?_eq hi, h.implicitAlias?_eq hpath]
      split
      · next name _ => exact hone _ _ (.path name hi)
      · exact hone _ _ (.fault .emptyReference hi)
    have hargs := h.propItems hi "args"
    by_cases hj : doc.hasProp item "join" = true
    · have hj' : doc'.hasProp item' "join" = true := h.hasProp_eq hi "join" ▸ hj
      by_cases he : (doc.propItems item "args").isEmpty = true
      · have he' : (doc'.propItems item' "args").isEmpty = true := by
          rw [List.isEmpty_iff] at he ⊢
          rw [he] at hargs
          exact List.forall₂_nil_left_iff.mp hargs
        rw [sourceItems, sourceItems, hr, hr']
        simp only [if_pos hj, if_pos hj', if_pos he, if_pos he']
        exact hone _ _ (.fault .emptyJoin hi)
      · have he' : ¬ (doc'.propItems item' "args").isEmpty = true := by
          rw [List.isEmpty_iff] at he ⊢
          intro hnil
          rw [hnil] at hargs
          exact he (List.forall₂_nil_right_iff.mp hargs)
        rw [sourceItems_of_join hr hj he, sourceItems_of_join hr' hj' he']
        refine List.rel_append (forall₂_flatMap hargs fun arg arg' hmem ha => ?_) ?_
        · have hlt := lt_of_mem_propItems hmem
          exact ih arg hlt.1 hlt.2 ha
        · rcases (h.prop? hi "on").some_or_none with ⟨on, on', hon, hon', ho⟩ | ⟨hon, hon'⟩
          · rw [hon, hon']
            exact hone _ _ (.condition ho)
          · rw [hon, hon']
            exact .nil
    · have hj' : ¬ doc'.hasProp item' "join" = true := h.hasProp_eq hi "join" ▸ hj
      rw [sourceItems, sourceItems, hr, hr', h.isQuery_eq hi]
      simp only [if_neg hj, if_neg hj']
      split
      · exact hone _ _ (.query hi)
      · exact hone _ _ (.fault .unsupported hi)

end Document

end SchemaRefs
