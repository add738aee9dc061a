import Mathlib.Logic.Relation
import SchemaRefs.Proofs.CanonicalPaths
import SchemaRefs.Proofs.ReferenceSearch

/-!
# What is listed as a reference

The search for references goes from node to node (`Document.Visits`), and at each of them notes what
looks like a reference (`Document.Notes`).

Main statement: the paths that the search lists are those of the nodes that it notes anywhere on its
way (`mem_referencePaths_iff`), so each of them is the path of a node below the start.
-/

namespace SchemaRefs

theorem mem_flatMap_zipIdx {α β : Type} {xs : List α} {f : α × Nat → List β} {b : β} :
    b ∈ xs.zipIdx.flatMap f ↔ ∃ position x, xs[position]? = some x ∧ b ∈ f (x, position) := by
  rw [List.mem_flatMap]
  constructor
  · rintro ⟨⟨x, position⟩, hmem, hb⟩
    exact ⟨position, x, List.mk_mem_zipIdx_iff_getElem?.mp hmem, hb⟩
  · rintro ⟨position, x, hget, hb⟩
    exact ⟨(x, position), List.mk_mem_zipIdx_iff_getElem?.mpr hget, hb⟩

namespace Document

variable {doc : Document} {position : Nat} {child holder list node noted : NodeId} {path : Path}
  {key : String}

variable (doc) in
/-- The search for references goes on from a node to another one. -/
inductive Visits : NodeId → NodeId → Prop where
  | item {list item : NodeId} {position : Nat} : (doc.itemsAt list)[position]? = some item →
      Visits list item
  /-- A filter or an argument of a segment. -/
  | decoration {holder list segment child : NodeId} {position : Nat} {key : String} :
      doc.refPath? holder = some list → (doc.itemsAt list)[position]? = some segment →
      key = "args" ∨ key = "where" → doc.prop? segment key = some child → Visits holder child
  | property {node child : NodeId} {key : String} : doc.prop? node key = some child → key ≠ "ref" →
      isDollarName key = false → ¬ (isNameProperty key = true ∧ doc.isString child = true) →
      isNameList key = false → Visits node child
  /-- An item of a list of names that is no name. -/
  | nameless {node list item : NodeId} {position : Nat} {key : String} :
      doc.prop? node key = some list → isNameList key = true →
      (doc.itemsAt list)[position]? = some item → doc.isString item = false → Visits node item

variable (doc) in
/-- The search takes down a node when it comes to another one. -/
inductive Notes : NodeId → NodeId → Prop where
  | reference {node list : NodeId} : doc.refPath? node = some list → doc.itemsAt list ≠ [] →
      Notes node node
  | name {node child : NodeId} {key name : String} : doc.prop? node key = some child →
      isNameProperty key = true → doc.string? child = some name → isBuiltinType name = false →
      Notes node child
  | listed {node list item : NodeId} {position : Nat} {key : String} :
      doc.prop? node key = some list → isNameList key = true →
      (doc.itemsAt list)[position]? = some item → doc.isString item = true → Notes node item

/-! ## Objects, lists and strings -/

theorem Within.prop {top : NodeId} (h : doc.Within top holder)
    (hp : doc.prop? holder key = some child) : doc.Within top child :=
  .step (container?_of_prop? hp).1 h

theorem Within.item {top item : NodeId} (h : doc.Within top list)
    (hi : (doc.itemsAt list)[position]? = some item) : doc.Within top item :=
  .step (container?_of_getElem?_itemsAt hi).1 h

theorem pathOf_prop? (h : doc.prop? node key = some child) :
    doc.pathOf child = (doc.pathOf node).push (.key key) :=
  pathOf_step (container?_of_prop? h).1 (container?_of_prop? h).2

theorem pathOf_getElem?_itemsAt {item : NodeId} (h : (doc.itemsAt list)[position]? = some item) :
    doc.pathOf item = (doc.pathOf list).push (.index position) :=
  pathOf_step (container?_of_getElem?_itemsAt h).1 (container?_of_getElem?_itemsAt h).2

theorem prop?_of_object {props : List (String × NodeId)}
    (hv : doc.value? node = some (.object props)) :
    (key, child) ∈ props ↔ doc.prop? node key = some child := by
  rw [← entries_of_object hv]
  exact ⟨prop?_of_mem_entries, mem_entries_of_prop?⟩

theorem prop?_of_not_object (h : ∀ props, doc.value? node ≠ some (.object props)) (key : String) :
    doc.prop? node key = none := by
  unfold prop? propIn
  split
  · next props hv => exact absurd hv (h props)
  · rfl

theorem prop?_of_isArray (h : doc.isArray node = true) (key : String) :
    doc.prop? node key = none := by
  refine prop?_of_not_object (fun props hv => ?_) key
  rw [isArray, hv] at h
  cases h

theorem prop?_of_isString (h : doc.isString node = true) (key : String) :
    doc.prop? node key = none := by
  refine prop?_of_not_object (fun props hv => ?_) key
  rw [isString, string?, hv] at h
  cases h

theorem isQuery_of_isString (h : doc.isString node = true) : doc.isQuery node = false := by
  simp [isQuery, hasProp, prop?_of_isString h]

theorem isString_eq_false_of_prop? (h : doc.prop? node key = some child) :
    doc.isString node = false := by
  cases hs : doc.isString node with
  | false => rfl
  | true =>
    rw [prop?_of_isString hs] at h
    cases h

theorem itemsAt_of_not_array (h : ∀ items, doc.value? node ≠ some (.array items)) :
    doc.itemsAt node = [] := by
  unfold itemsAt
  split
  · next items hv => exact absurd hv (h items)
  · rfl

theorem isArray_of_getElem?_itemsAt {item : NodeId}
    (h : (doc.itemsAt list)[position]? = some item) : doc.isArray list = true := by
  unfold itemsAt at h
  unfold isArray
  split at h
  · rfl
  · cases h

theorem isString_of_isArray (h : doc.isArray node = true) : doc.isString node = false := by
  unfold isArray at h
  unfold isString string?
  split at h
  · next hv => rw [hv]; rfl
  · cases h

theorem prop?_of_refPath? (h : doc.refPath? holder = some list) :
    doc.prop? holder "ref" = some list ∧ doc.isArray list = true :=
  Option.filter_eq_some_iff.mp h

theorem refPath?_of_prop? (h : doc.prop? node "ref" = none) : doc.refPath? node = none := by
  rw [refPath?, h]
  rfl

theorem exists_string?_of_isString (h : doc.isString node = true) :
    ∃ name, doc.string? node = some name :=
  Option.isSome_iff_exists.mp h

/-- The search does not pass over a list of names, nor take it for a name. -/
theorem not_skipped_of_isNameList (h : isNameList key = true) :
    key ≠ "ref" ∧ isDollarName key = false ∧ isNameProperty key = false := by
  rcases Bool.or_eq_true_iff.mp h with h | h <;> rw [eq_of_beq h] <;> decide +kernel

theorem not_skipped_of_isNameProperty (h : isNameProperty key = true) :
    key ≠ "ref" ∧ isDollarName key = false := by
  simp only [isNameProperty, Bool.or_eq_true, beq_iff_eq] at h
  rcases h with (rfl | rfl) | rfl <;> decide +kernel

theorem isNameProperty_of_target (h : key = "target" ∨ key = "targetAspect") :
    isNameProperty key = true := by
  rcases h with rfl | rfl <;> decide

theorem exists_object_of_prop? (h : doc.prop? node key = some child) :
    ∃ props, doc.value? node = some (.object props) := by
  unfold prop? propIn at h
  split at h
  · next props hv => exact ⟨props, hv⟩
  · cases h

/-! ## The search at one node -/

variable (doc) in
/-- What the search lists when it comes to a node: the node that it takes down there, or what it
lists from where it goes on. -/
def Finds (node : NodeId) (path : Path) : Prop :=
  (∃ noted, doc.Notes node noted ∧ path = doc.pathOf noted) ∨
    ∃ child, doc.Visits node child ∧ path ∈ doc.referencesBelow child (doc.pathOf child)

/-- Nothing is noted at a node without properties, and the search goes on with its items. -/
theorem finds_iff_of_not_object (h : ∀ props, doc.value? node ≠ some (.object props)) :
    doc.Finds node path ↔ ∃ (position : Nat) (item : NodeId),
      (doc.itemsAt node)[position]? = some item ∧
      path ∈ doc.referencesBelow item (doc.pathOf item) := by
  have hprop := prop?_of_not_object h
  have href := refPath?_of_prop? (hprop "ref")
  constructor
  · rintro (⟨noted, hn, _⟩ | ⟨child, hc, hp⟩)
    · cases hn with
      | reference hr => rw [href] at hr; cases hr
      | name hk => rw [hprop] at hk; cases hk
      | listed hk => rw [hprop] at hk; cases hk
    · cases hc with
      | item hi => exact ⟨_, child, hi, hp⟩
      | decoration hr => rw [href] at hr; cases hr
      | property hk => rw [hprop] at hk; cases hk
      | nameless hk => rw [hprop] at hk; cases hk
  · rintro ⟨position, item, hi, hp⟩
    exact .inr ⟨item, .item hi, hp⟩

theorem mem_decorationPaths_iff {segment : NodeId} :
    path ∈ doc.decorationPaths (doc.pathOf segment) segment key ↔
      ∃ child, doc.prop? segment key = some child ∧
      path ∈ doc.referencesBelow child (doc.pathOf child) := by
  unfold decorationPaths
  cases hc : doc.prop? segment key with
  | none => simp
  | some child => simp [pathOf_prop? hc]

/-- What is listed for the `ref` of an object: the object itself, and what is below the decorations
of segments. -/
theorem mem_heldPaths_iff :
    path ∈ doc.heldPaths node (doc.pathOf node) ↔ ∃ list, doc.refPath? node = some list ∧
      (doc.itemsAt list ≠ [] ∧ path = doc.pathOf node ∨
        ∃ (position : Nat) (segment : NodeId), (doc.itemsAt list)[position]? = some segment ∧
          ∃ key, (key = "args" ∨ key = "where") ∧
          path ∈ doc.decorationPaths (doc.pathOf segment) segment key) := by
  unfold heldPaths
  cases hr : doc.refPath? node with
  | none => simp
  | some list =>
    have hlist := Option.eq_some_of_filter_eq_some hr
    simp only [Option.some.injEq, exists_eq_left', List.mem_append]
    rw [mem_flatMap_zipIdx]
    refine or_congr (by by_cases hempty : doc.itemsAt list = [] <;> simp [hempty]) ?_
    refine exists_congr fun position => exists_congr fun segment => and_congr_right fun hi => ?_
    rw [pathOf_getElem?_itemsAt hi, pathOf_prop? hlist]
    simp

/-- The search at a property lists nothing but what it finds. -/
theorem finds_of_mem_propertyPaths (hprop : doc.prop? node key = some child)
    (h : path ∈ doc.propertyPaths (doc.pathOf node) key child) :
    doc.Finds node path := by
  unfold propertyPaths at h
  rw [← pathOf_prop? hprop] at h
  split at h
  · cases h
  · next hskip =>
    simp only [Bool.or_eq_true, beq_iff_eq, not_or, Bool.not_eq_true] at hskip
    split at h
    · next hname =>
      rw [Bool.and_eq_true] at hname
      obtain ⟨name, hs⟩ := exists_string?_of_isString hname.2
      rw [hs] at h
      split at h
      · cases h
      · next hb =>
          exact .inl ⟨child, .name hprop hname.1 hs (by simpa using hb), List.mem_singleton.mp h⟩
    · next hname =>
      split at h
      · next hlist =>
        obtain ⟨position, item, hi, h⟩ := mem_flatMap_zipIdx.mp h
        dsimp only at h
        rw [← pathOf_getElem?_itemsAt hi, namePaths] at h
        split at h
        · next hs => exact .inl ⟨item, .listed hprop hlist hi hs, List.mem_singleton.mp h⟩
        · next hs => exact .inr ⟨item, .nameless hprop hlist hi (by simpa using hs), h⟩
      · next hlist =>
        exact .inr ⟨child, .property hprop hskip.1 hskip.2 (by simpa using hname)
          (by simpa using hlist), h⟩

theorem mem_propertyPaths_of_item {item : NodeId} (hprop : doc.prop? node key = some list)
    (hk : isNameList key = true) (hi : (doc.itemsAt list)[position]? = some item)
    (h : path ∈ doc.namePaths (doc.pathOf item) item) :
    path ∈ doc.propertyPaths (doc.pathOf node) key list := by
  rw [propertyPaths, ← pathOf_prop? hprop, if_neg (by simp [not_skipped_of_isNameList hk]),
    if_neg (by simp [not_skipped_of_isNameList hk]), if_pos hk, mem_flatMap_zipIdx]
  refine ⟨position, item, hi, ?_⟩
  dsimp only
  rwa [← pathOf_getElem?_itemsAt hi]

theorem mem_referencesBelow_object_iff {props : List (String × NodeId)}
    (hv : doc.value? node = some (.object props)) :
    path ∈ doc.referencesBelow node (doc.pathOf node) ↔
    path ∈ doc.heldPaths node (doc.pathOf node) ∨
      ∃ key child, doc.prop? node key = some child ∧
      path ∈ doc.propertyPaths (doc.pathOf node) key child := by
  rw [referencesBelow_of_object hv, List.mem_append, List.mem_flatMap, Prod.exists]
  refine or_congr_right (exists_congr fun key => exists_congr fun child => ?_)
  rw [prop?_of_object hv]

/-- What the search takes down at a node is listed for its `ref` or for one of its properties. -/
theorem Notes.mem_paths (h : doc.Notes node noted) :
    doc.pathOf noted ∈ doc.heldPaths node (doc.pathOf node) ∨
      ∃ key child, doc.prop? node key = some child ∧
        doc.pathOf noted ∈ doc.propertyPaths (doc.pathOf node) key child := by
  cases h with
  | reference hr hne => exact .inl (mem_heldPaths_iff.mpr ⟨_, hr, .inl ⟨hne, rfl⟩⟩)
  | name hprop hk hs hb =>
    refine .inr ⟨_, _, hprop, ?_⟩
    rw [propertyPaths, ← pathOf_prop? hprop, if_neg (by simp [not_skipped_of_isNameProperty hk]),
      if_pos (by simp [hk, isString, hs]), hs, if_neg (by simpa using hb)]
    exact List.mem_singleton_self _
  | listed hprop hk hi hs =>
    refine .inr ⟨_, _, hprop, mem_propertyPaths_of_item hprop hk hi ?_⟩
    rw [namePaths, if_pos hs]
    exact List.mem_singleton_self _

/-- What is listed from where the search goes on is listed for the `ref` of the node or for one of
its properties. -/
theorem Visits.mem_paths (h : doc.Visits node child)
    (hv : ∀ items, doc.value? node ≠ some (.array items))
    (hp : path ∈ doc.referencesBelow child (doc.pathOf child)) :
    path ∈ doc.heldPaths node (doc.pathOf node) ∨ ∃ key child, doc.prop? node key = some child ∧
      path ∈ doc.propertyPaths (doc.pathOf node) key child := by
  cases h with
  | item hi =>
    rw [itemsAt_of_not_array hv] at hi
    cases hi
  | decoration hr hi hk hc =>
    refine .inl (mem_heldPaths_iff.mpr ⟨_, hr, .inr ⟨_, _, hi, _, hk, ?_⟩⟩)
    exact mem_decorationPaths_iff.mpr ⟨child, hc, hp⟩
  | property hprop hne hd hname hlist =>
    refine .inr ⟨_, _, hprop, ?_⟩
    rwa [propertyPaths, ← pathOf_prop? hprop, if_neg (by simp [hne, hd]),
      if_neg (by simpa using hname), if_neg (by simp [hlist])]
  | nameless hprop hk hi hs =>
    refine .inr ⟨_, _, hprop, mem_propertyPaths_of_item hprop hk hi ?_⟩
    rwa [namePaths, if_neg (by simp [hs])]

/-- The search at a node lists what it finds there. -/
theorem mem_referencesBelow_iff :
    path ∈ doc.referencesBelow node (doc.pathOf node) ↔ doc.Finds node path := by
  by_cases hobject : ∃ props, doc.value? node = some (.object props)
  · obtain ⟨props, hv⟩ := hobject
    rw [mem_referencesBelow_object_iff hv]
    constructor
    · rintro (hheld | ⟨key, child, hprop, hp⟩)
      · obtain ⟨list, hr, ⟨hne, hp⟩ | ⟨position, segment, hi, key, hkey, hp⟩⟩ :=
          mem_heldPaths_iff.mp hheld
        · exact .inl ⟨node, .reference hr hne, hp⟩
        · obtain ⟨child, hc, hp⟩ := mem_decorationPaths_iff.mp hp
          exact .inr ⟨child, .decoration hr hi hkey hc, hp⟩
      · exact finds_of_mem_propertyPaths hprop hp
    · rintro (⟨noted, hn, rfl⟩ | ⟨child, hc, hp⟩)
      · exact hn.mem_paths
      · exact hc.mem_paths (by simp [hv]) hp
  · have hno : ∀ props, doc.value? node ≠ some (.object props) :=
      fun props hv => hobject ⟨props, hv⟩
    rw [finds_iff_of_not_object hno]
    by_cases harray : ∃ items, doc.value? node = some (.array items)
    · obtain ⟨items, hv⟩ := harray
      have hitems : doc.itemsAt node = items := by rw [itemsAt, hv]
      rw [referencesBelow_of_array hv, ← hitems, mem_flatMap_zipIdx]
      refine exists_congr fun position => exists_congr fun item => and_congr_right fun hi => ?_
      dsimp only
      rw [← pathOf_getElem?_itemsAt hi]
    · have hno' : ∀ items, doc.value? node ≠ some (.array items) :=
        fun items hv => harray ⟨items, hv⟩
      rw [referencesBelow_of_leaf hno' hno, itemsAt_of_not_array hno']
      simp

/-! ## The whole search -/

variable (doc) in
/-- The search that starts at a node comes to another one. -/
def Searches (start node : NodeId) : Prop :=
  Relation.ReflTransGen doc.Visits start node

theorem Visits.within (h : doc.Visits node child) : doc.Within node child := by
  cases h with
  | item hi => exact Within.refl.item hi
  | decoration hr hi _ hc =>
    exact ((Within.refl.prop (Option.eq_some_of_filter_eq_some hr)).item hi).prop hc
  | property hprop => exact Within.refl.prop hprop
  | nameless hprop _ hi => exact (Within.refl.prop hprop).item hi

theorem Visits.lt {node child : Nat} (h : doc.Visits node child) :
    node < child ∧ child < doc.size := by
  cases h with
  | item hi => exact lt_of_mem_itemsAt (List.mem_of_getElem? hi)
  | decoration hr hi _ hc =>
    have hlist := prop?_lt (Option.eq_some_of_filter_eq_some hr)
    have hsegment := lt_of_mem_itemsAt (List.mem_of_getElem? hi)
    have hchild := prop?_lt hc
    omega
  | property hprop => exact prop?_lt hprop
  | nameless hprop _ hi =>
    have hlist := prop?_lt hprop
    have hitem := lt_of_mem_itemsAt (List.mem_of_getElem? hi)
    omega

theorem Searches.within {start : NodeId} (h : doc.Searches start node) : doc.Within start node := by
  induction h with
  | refl => exact .refl
  | tail _ hv ih => exact ih.trans hv.within

theorem Notes.within (h : doc.Notes node noted) : doc.Within node noted := by
  cases h with
  | reference => exact .refl
  | name hprop => exact Within.refl.prop hprop
  | listed hprop _ hi => exact (Within.refl.prop hprop).item hi

/-- A name is taken down at the node whose property it is. -/
theorem Notes.holder_of_prop? (h : doc.Notes node noted)
    (hp : doc.prop? holder key = some noted) (hs : doc.isString noted = true) : node = holder := by
  obtain ⟨hc, hstep⟩ := container?_of_prop? hp
  cases h with
  | reference hr =>
    rw [isString_eq_false_of_prop? (Option.eq_some_of_filter_eq_some hr)] at hs
    cases hs
  | name hp' => exact Option.some.inj ((container?_of_prop? hp').1.symm.trans hc)
  | listed _ _ hi =>
    rw [(container?_of_getElem?_itemsAt hi).2] at hstep
    cases hstep

theorem Notes.holder_of_item (h : doc.Notes node noted) (hp : doc.prop? holder key = some list)
    (hi : (doc.itemsAt list)[position]? = some noted) (hs : doc.isString noted = true) :
    node = holder := by
  obtain ⟨hc, hstep⟩ := container?_of_getElem?_itemsAt hi
  cases h with
  | reference hr =>
    rw [isString_eq_false_of_prop? (Option.eq_some_of_filter_eq_some hr)] at hs
    cases hs
  | name hp' =>
    rw [(container?_of_prop? hp').2] at hstep
    cases hstep
  | listed hp' _ hi' =>
    obtain rfl := Option.some.inj ((container?_of_getElem?_itemsAt hi').1.symm.trans hc)
    exact Option.some.inj ((container?_of_prop? hp').1.symm.trans (container?_of_prop? hp).1)

theorem Notes.lt_size (h : doc.Notes node noted) : noted < doc.size := by
  cases h with
  | reference hr =>
    have hlt := prop?_lt (Option.eq_some_of_filter_eq_some hr)
    exact Nat.lt_trans hlt.1 hlt.2
  | name hprop => exact (prop?_lt hprop).2
  | listed _ _ hi => exact (lt_of_mem_itemsAt (List.mem_of_getElem? hi)).2

/-- The paths that are listed are those of the nodes that the search takes down where it comes. -/
theorem mem_referencePaths_iff {start : NodeId} :
    path ∈ doc.referencePaths start ↔
      ∃ node noted, doc.Searches start node ∧ doc.Notes node noted ∧ path = doc.pathOf noted := by
  rw [referencePaths_eq]
  constructor
  · intro h
    induction hn : doc.size - start using Nat.strongRecOn generalizing start with
    | ind n ih =>
      rcases mem_referencesBelow_iff.mp h with ⟨noted, hnotes, hp⟩ | ⟨child, hv, hp⟩
      · exact ⟨start, noted, .refl, hnotes, hp⟩
      · have hlt := hv.lt
        obtain ⟨node, noted, hs, hnotes, heq⟩ := ih (doc.size - child) (by omega) hp rfl
        exact ⟨node, noted, .head hv hs, hnotes, heq⟩
  · rintro ⟨node, noted, hs, hnotes, rfl⟩
    refine Relation.ReflTransGen.head_induction_on hs ?_ ?_
    · exact mem_referencesBelow_iff.mpr (.inl ⟨noted, hnotes, rfl⟩)
    · exact fun hv _ hp => mem_referencesBelow_iff.mpr (.inr ⟨_, hv, hp⟩)

end Document

end SchemaRefs
