import SchemaRefs.Proofs.CanonicalPaths

/-!
# Loading a value

A document lays out the value that it was loaded from. Below each handle its nodes are laid out one
after the other, so what a node holds is a value (`Document.Holds`), and reading it back gives that
value (`toJson_of_holds`).

`Json.preorder` lists the values below a value in pre-order, each with the steps that lead to it.
The node with handle `k` holds the `k`-th of them (`holds_of_preorder`), its subtree is the interval
of handles from `k` on that is as long as its value is large (`Holds.within_iff`), so that the items
of an array come one after the other (`inOrder_itemsAt`), and a path leads to the node that holds
the value at the path (`Holds.followAll?`). Together these make loading and reading back inverse to
each other.
-/

namespace SchemaRefs

namespace Json

/-! ## Values below a value -/

/-- The value that a step leads to. A position in an object is a property of digits. -/
def child? : Json → Step → Option Json
  | .object props, step => Table.get? props step.text
  | .array items, .index position => items[position]?
  | _, _ => none

/-- The value that several steps lead to. -/
def valueAt? (value : Json) : List Step → Option Json
  | [] => some value
  | step :: rest => (value.child? step).bind fun next => next.valueAt? rest

mutual

/-- A value that is reached by `steps`, and everything below it, in pre-order, each with the steps
that lead to it. -/
def preorder (steps : List Step) : Json → List (List Step × Json)
  | .array items => (steps, .array items) :: preorderItems steps 0 items
  | .object props => (steps, .object props) :: preorderProps steps props
  | value => [(steps, value)]

/-- The items of an array, from position `position` on, with everything below them. -/
def preorderItems (steps : List Step) (position : Nat) : List Json → List (List Step × Json)
  | [] => []
  | item :: rest =>
    preorder (steps ++ [.index position]) item ++ preorderItems steps (position + 1) rest

/-- The properties of an object with everything below them. -/
def preorderProps (steps : List Step) : List (String × Json) → List (List Step × Json)
  | [] => []
  | (key, value) :: rest => preorder (steps ++ [.key key]) value ++ preorderProps steps rest

end

mutual

theorem length_preorder (steps : List Step) :
    (value : Json) → (preorder steps value).length = value.size
  | .null | .bool _ | .number _ | .string _ => rfl
  | .array items => by
    rw [preorder, List.length_cons, length_preorderItems, size, Nat.add_comm]
  | .object props => by
    rw [preorder, List.length_cons, length_preorderProps, size, Nat.add_comm]

theorem length_preorderItems (steps : List Step) (position : Nat) : (items : List Json) →
    (preorderItems steps position items).length = sizeItems items
  | [] => rfl
  | item :: rest => by
    rw [preorderItems, List.length_append, length_preorder, length_preorderItems, sizeItems]

theorem length_preorderProps (steps : List Step) : (props : List (String × Json)) →
    (preorderProps steps props).length = sizeProps props
  | [] => rfl
  | (key, value) :: rest => by
    rw [preorderProps, List.length_append, length_preorder, length_preorderProps, sizeProps]

end

/-! ## Values with distinct keys are laid out as they are -/

end Json

theorem Table.ofList_of_nodup {α : Type} {pairs : List (String × α)}
    (h : (Table.keys pairs).Nodup) :
    Table.ofList pairs = pairs := by
  suffices hfold : ∀ table : List (String × α), (Table.keys (table ++ pairs)).Nodup →
      pairs.foldl (fun t p => Table.put t p.1 p.2) table = table ++ pairs from hfold [] h
  clear h
  induction pairs with
  | nil => exact fun table _ => (List.append_nil table).symm
  | cons pair rest ih =>
    obtain ⟨key, value⟩ := pair
    intro table hnodup
    have hnew : key ∉ Table.keys table := by
      intro hmem
      rw [Table.keys, List.map_append, List.map_cons, List.nodup_append] at hnodup
      exact hnodup.2.2 key hmem key List.mem_cons_self rfl
    rw [List.foldl_cons, Table.put_of_not_mem_keys hnew value, ih _ (by rwa [List.append_assoc]),
      List.append_assoc]
    rfl

namespace Json

mutual

theorem canonical_of_distinctKeys : (value : Json) → value.DistinctKeys → value.canonical = value
  | .null, _ | .bool _, _ | .number _, _ | .string _, _ => by simp [canonical]
  | .array items, h => by
    rw [canonical, canonicalItems_of_distinctKeys items h]
  | .object props, h => by
    rw [DistinctKeys] at h
    rw [canonical, canonicalProps_of_distinctKeys props h.2, Table.ofList_of_nodup h.1]

theorem canonicalItems_of_distinctKeys : (items : List Json) → DistinctKeysItems items →
    canonicalItems items = items
  | [], _ => rfl
  | item :: rest, h => by
    rw [DistinctKeysItems] at h
    rw [canonicalItems, canonical_of_distinctKeys item h.1, canonicalItems_of_distinctKeys rest h.2]

theorem canonicalProps_of_distinctKeys : (props : List (String × Json)) → DistinctKeysProps props →
    canonicalProps props = props
  | [], _ => rfl
  | (key, value) :: rest, h => by
    rw [DistinctKeysProps] at h
    rw [canonicalProps, canonical_of_distinctKeys value h.1,
      canonicalProps_of_distinctKeys rest h.2]

end

/-! ## Properties in a layout -/

/-- The value of a property is laid out at its handle. -/
theorem layoutProps_get? {props : List (String × Json)} {key : String} {value : Json}
    (h : Table.get? props key = some value) : ∀ base parent : Nat, ∃ id container step rest,
      Table.get? (propHandles base props) key = some id ∧ base ≤ id ∧
        (layoutProps base parent props).drop (id - base) =
          layout id container step value ++ rest := by
  induction props with
  | nil => cases h
  | cons pair others ih =>
    obtain ⟨key', value'⟩ := pair
    intro base parent
    rw [propHandles, Table.get?_cons, layoutProps]
    rw [Table.get?_cons] at h
    by_cases hk : key = key'
    · rw [if_pos hk] at h ⊢
      cases h
      exact ⟨base, _, _, _, rfl, Nat.le_refl _, by rw [Nat.sub_self]; rfl⟩
    · rw [if_neg hk] at h ⊢
      obtain ⟨id, container, step, rest, hget, hle, hdrop⟩ := ih h (base + value'.size) parent
      have hpos : base ≤ id := Nat.le_trans (Nat.le_add_right _ _) hle
      refine ⟨id, container, step, rest, hget, hpos, ?_⟩
      rw [List.drop_append, List.drop_of_length_le
        (by rw [length_layout]; exact Nat.le_sub_of_add_le' hle),
        length_layout, List.nil_append, Nat.sub_sub, hdrop]

/-! ## Every node starts the layout of a value -/

mutual

/-- What is left of a layout from an offset on starts with the layout of a value. -/
theorem drop_layout (base : Nat) (container : Option NodeId) (step : Option Step) (k : Nat) :
    (value : Json) → k < value.size → ∃ part container' step' rest,
      (layout base container step value).drop k = layout (base + k) container' step' part ++ rest
  | .null, hk | .bool _, hk | .number _, hk | .string _, hk => by
    obtain rfl : k = 0 := by
      simp only [size] at hk
      omega
    exact ⟨_, container, step, [], by rw [List.append_nil]; rfl⟩
  | .array items, hk => by
    cases k with
    | zero => exact ⟨.array items, container, step, [], by rw [List.append_nil]; rfl⟩
    | succ k =>
      simp only [size] at hk
      obtain ⟨part, c, s, rest, h⟩ := drop_layoutItems (base + 1) base 0 k items (by omega)
      refine ⟨part, c, s, rest, ?_⟩
      rw [layout, List.drop_succ_cons, h, Nat.add_right_comm, Nat.add_assoc]
  | .object props, hk => by
    cases k with
    | zero => exact ⟨.object props, container, step, [], by rw [List.append_nil]; rfl⟩
    | succ k =>
      simp only [size] at hk
      obtain ⟨part, c, s, rest, h⟩ := drop_layoutProps (base + 1) base k props (by omega)
      refine ⟨part, c, s, rest, ?_⟩
      rw [layout, List.drop_succ_cons, h, Nat.add_right_comm, Nat.add_assoc]

theorem drop_layoutItems (base parent position k : Nat) :
    (items : List Json) → k < sizeItems items → ∃ part container' step' rest,
      (layoutItems base parent position items).drop k =
        layout (base + k) container' step' part ++ rest
  | [], hk => by
    simp only [sizeItems] at hk
    omega
  | item :: others, hk => by
    simp only [sizeItems] at hk
    rw [layoutItems]
    by_cases hlt : k < item.size
    · obtain ⟨part, c, s, rest, h⟩ :=
        drop_layout base (some parent) (some (.index position)) k item hlt
      refine ⟨part, c, s, rest ++ layoutItems (base + item.size) parent (position + 1) others, ?_⟩
      rw [List.drop_append_of_le_length (by rw [length_layout]; omega), h, List.append_assoc]
    · obtain ⟨part, c, s, rest, h⟩ :=
        drop_layoutItems (base + item.size) parent (position + 1) (k - item.size) others (by omega)
      refine ⟨part, c, s, rest, ?_⟩
      rw [List.drop_append, List.drop_of_length_le (by rw [length_layout]; omega), length_layout,
        List.nil_append, h]
      congr 2
      omega

theorem drop_layoutProps (base parent k : Nat) :
    (props : List (String × Json)) → k < sizeProps props → ∃ part container' step' rest,
      (layoutProps base parent props).drop k = layout (base + k) container' step' part ++ rest
  | [], hk => by
    simp only [sizeProps] at hk
    omega
  | (key, value) :: others, hk => by
    simp only [sizeProps] at hk
    rw [layoutProps]
    by_cases hlt : k < value.size
    · obtain ⟨part, c, s, rest, h⟩ := drop_layout base (some parent) (some (.key key)) k value hlt
      refine ⟨part, c, s, rest ++ layoutProps (base + value.size) parent others, ?_⟩
      rw [List.drop_append_of_le_length (by rw [length_layout]; omega), h, List.append_assoc]
    · obtain ⟨part, c, s, rest, h⟩ :=
        drop_layoutProps (base + value.size) parent (k - value.size) others (by omega)
      refine ⟨part, c, s, rest, ?_⟩
      rw [List.drop_append, List.drop_of_length_le (by rw [length_layout]; omega), length_layout,
        List.nil_append, h]
      congr 2
      omega

end

end Json

namespace Document

variable {doc : Document} {value : Json} {rest : List Node} {base node : Nat}

/-! ## The value at a handle -/

variable (doc) in
/-- The nodes from a handle on start with the layout of a value. -/
def Holds (node : NodeId) (value : Json) : Prop :=
  ∃ container step rest, doc.nodes.toList.drop node = value.layout node container step ++ rest

variable (doc) in
/-- The nodes from a handle on start with the layouts of the items of an array. -/
def HoldsItems (base : NodeId) (items : List Json) : Prop :=
  ∃ parent position rest, doc.nodes.toList.drop base =
    Json.layoutItems base parent position items ++ rest

variable (doc) in
/-- The nodes from a handle on start with the layouts of the properties of an object. -/
def HoldsProps (base : NodeId) (props : List (String × Json)) : Prop :=
  ∃ parent rest, doc.nodes.toList.drop base = Json.layoutProps base parent props ++ rest

theorem exists_holds (h : node < doc.size) : ∃ value, doc.Holds node value := by
  obtain ⟨tree, _, hl⟩ := doc.nodes_layout
  have hsize : doc.size = tree.size := by
    rw [size, ← Array.length_toList, hl, Json.length_layout]
  obtain ⟨value, container, step, rest, hd⟩ := Json.drop_layout 0 none none node tree (by omega)
  rw [Nat.zero_add] at hd
  exact ⟨value, container, step, rest, hl ▸ hd⟩

theorem value?_of_drop {first : Node}
    (h : doc.nodes.toList.drop node = first :: rest) : doc.value? node = some first.value := by
  have hfirst : doc.nodes.toList[node]? = some first := by
    rw [← Nat.add_zero node, ← List.getElem?_drop, h]
    rfl
  rw [value?, valueIn, ← Array.getElem?_toList, hfirst]
  rfl

theorem drop_succ_of_drop {first : Node}
    (h : doc.nodes.toList.drop node = first :: rest) : doc.nodes.toList.drop (node + 1) = rest := by
  rw [← List.drop_drop, h]
  rfl

theorem Holds.array {items : List Json} (h : doc.Holds node (.array items)) :
    doc.value? node = some (.array (Json.itemHandles (node + 1) items)) ∧
      doc.HoldsItems (node + 1) items := by
  obtain ⟨container, step, rest, hd⟩ := h
  exact ⟨value?_of_drop hd, node, 0, rest, drop_succ_of_drop hd⟩

theorem Holds.object {props : List (String × Json)} (h : doc.Holds node (.object props)) :
    doc.value? node = some (.object (Json.propHandles (node + 1) props)) ∧
      doc.HoldsProps (node + 1) props := by
  obtain ⟨container, step, rest, hd⟩ := h
  exact ⟨value?_of_drop hd, node, rest, drop_succ_of_drop hd⟩

theorem HoldsItems.cons {item : Json} {rest : List Json} (h : doc.HoldsItems base (item :: rest)) :
    doc.Holds base item ∧ doc.HoldsItems (base + item.size) rest := by
  obtain ⟨parent, position, others, hd⟩ := h
  rw [Json.layoutItems, List.append_assoc] at hd
  refine ⟨⟨_, _, _, hd⟩, parent, position + 1, others, ?_⟩
  rw [← List.drop_drop, hd, List.drop_left' (Json.length_layout ..)]

theorem HoldsProps.cons {key : String} {rest : List (String × Json)}
    (h : doc.HoldsProps base ((key, value) :: rest)) :
    doc.Holds base value ∧ doc.HoldsProps (base + value.size) rest := by
  obtain ⟨parent, others, hd⟩ := h
  rw [Json.layoutProps, List.append_assoc] at hd
  refine ⟨⟨_, _, _, hd⟩, parent, others, ?_⟩
  rw [← List.drop_drop, hd, List.drop_left' (Json.length_layout ..)]

/-! ## Values are read back -/

theorem toJson_of_array {node : NodeId} {items : List NodeId}
    (h : doc.value? node = some (.array items)) :
    doc.toJson node = .array (items.map doc.toJson) := by
  rw [toJson]
  split <;> rename_i hv <;> rw [h] at hv <;> cases hv
  rw [List.map_subtype (g := doc.toJson) (fun _ _ => rfl), List.unattach_attach]

theorem toJson_of_object {node : NodeId} {props : List (String × NodeId)}
    (h : doc.value? node = some (.object props)) :
    doc.toJson node = .object (props.map fun prop => (prop.1, doc.toJson prop.2)) := by
  rw [toJson]
  split <;> rename_i hv <;> rw [h] at hv <;> cases hv
  rw [List.map_subtype (g := fun prop => (prop.1, doc.toJson prop.2)) (fun _ _ => rfl),
    List.unattach_attach]

mutual

theorem toJson_of_holds {node : Nat} :
    (value : Json) → doc.Holds node value → doc.toJson node = value
  | .null, h | .bool _, h | .number _, h | .string _, h => by
    obtain ⟨container, step, rest, hd⟩ := h
    have hv := value?_of_drop hd
    rw [toJson]
    split <;> rename_i hv' <;> rw [hv] at hv' <;> cases hv' <;> rfl
  | .array items, h => by
    obtain ⟨hv, hi⟩ := h.array
    rw [toJson_of_array hv, map_toJson_of_holdsItems items hi]
  | .object props, h => by
    obtain ⟨hv, hp⟩ := h.object
    rw [toJson_of_object hv, map_toJson_of_holdsProps props hp]

theorem map_toJson_of_holdsItems {base : Nat} : (items : List Json) → doc.HoldsItems base items →
    (Json.itemHandles base items).map doc.toJson = items
  | [], _ => rfl
  | item :: rest, h => by
    rw [Json.itemHandles, List.map_cons, toJson_of_holds item h.cons.1,
      map_toJson_of_holdsItems rest h.cons.2]

theorem map_toJson_of_holdsProps {base : Nat} : (props : List (String × Json)) →
    doc.HoldsProps base props →
    (Json.propHandles base props).map (fun prop => (prop.1, doc.toJson prop.2)) = props
  | [], _ => rfl
  | (key, value) :: rest, h => by
    rw [Json.propHandles, List.map_cons, toJson_of_holds value h.cons.1,
      map_toJson_of_holdsProps rest h.cons.2]

end

theorem mem_children_of_links {value : NodeValue} {step : Step} {child : NodeId}
    (h : (step, child) ∈ value.links) : child ∈ value.children := by
  cases value with
  | array items =>
    obtain ⟨⟨id, position⟩, hm, heq⟩ := List.mem_map.mp h
    cases heq
    exact List.mem_of_getElem? (List.mk_mem_zipIdx_iff_getElem?.mp hm)
  | object props =>
    obtain ⟨prop, hm, heq⟩ := List.mem_map.mp h
    cases heq
    exact List.mem_map.mpr ⟨prop, hm, rfl⟩
  | _ => cases h

/-! ## Nodes in pre-order -/

theorem link_of_drop {container : Option NodeId} {step : Option Step}
    (h : doc.nodes.toList.drop base = value.layout base container step ++ rest) :
    doc.container? base = container ∧ doc.step? base = step := by
  obtain ⟨node, hn, hc, hs⟩ := Json.layout_head base container step value
  have hfirst : doc.nodes.toList[base]? = some node := by
    rw [← Nat.add_zero base, ← List.getElem?_drop, h,
      List.getElem?_append_left (by rw [Json.length_layout]; exact value.size_pos), hn]
  rw [Array.getElem?_toList] at hfirst
  rw [container?, step?, node?, hfirst]
  exact ⟨hc, hs⟩

theorem drop_of_append {first : List Node} (h : doc.nodes.toList.drop base = first ++ rest) :
    doc.nodes.toList.drop (base + first.length) = rest := by
  rw [← List.drop_drop, h, List.drop_left]

/-- Node `base + k` holds the `k`-th value of a list, and is reached by the steps named there. -/
def HoldsAll (doc : Document) (base : Nat) (values : List (List Step × Json)) : Prop :=
  ∀ (k : Nat) (steps : List Step) (value : Json), values[k]? = some (steps, value) →
    doc.Holds (base + k) value ∧ doc.stepsTo (base + k) = steps

theorem HoldsAll.append {first rest : List (List Step × Json)} (h : doc.HoldsAll base first)
    (h' : doc.HoldsAll (base + first.length) rest) : doc.HoldsAll base (first ++ rest) := by
  intro k steps value hk
  by_cases hlt : k < first.length
  · rw [List.getElem?_append_left hlt] at hk
    exact h k steps value hk
  · rw [List.getElem?_append_right (by omega)] at hk
    have hrest := h' (k - first.length) steps value hk
    rwa [show base + first.length + (k - first.length) = base + k by omega] at hrest

theorem HoldsAll.cons {steps : List Step} {rest : List (List Step × Json)}
    (hv : doc.Holds base value) (hs : doc.stepsTo base = steps) (h : doc.HoldsAll (base + 1) rest) :
    doc.HoldsAll base ((steps, value) :: rest) := by
  intro k steps' value' hk
  cases k with
  | zero =>
    cases hk
    exact ⟨hv, hs⟩
  | succ k =>
    have hrest := h k steps' value' hk
    rwa [show base + 1 + k = base + (k + 1) by omega] at hrest

mutual

/-- The nodes from a handle on hold the values below its own value, in pre-order. -/
theorem holdsAll_preorder {base : Nat} {steps : List Step} (hs : doc.stepsTo base = steps) :
    (value : Json) → doc.Holds base value → doc.HoldsAll base (value.preorder steps)
  | .null, h | .bool _, h | .number _, h | .string _, h => .cons h hs (fun k _ _ hk => by cases hk)
  | .array items, h => by
    obtain ⟨container, step, rest, hd⟩ := h
    exact .cons ⟨container, step, rest, hd⟩
      hs (holdsAll_preorderItems hs items (drop_succ_of_drop hd))
  | .object props, h => by
    obtain ⟨container, step, rest, hd⟩ := h
    exact .cons ⟨container, step, rest, hd⟩
      hs (holdsAll_preorderProps hs props (drop_succ_of_drop hd))

theorem holdsAll_preorderItems {base parent position : Nat} {steps : List Step} {rest : List Node}
    (hs : doc.stepsTo parent = steps) : (items : List Json) →
    doc.nodes.toList.drop base = Json.layoutItems base parent position items ++ rest →
    doc.HoldsAll base (Json.preorderItems steps position items)
  | [], _ => fun k _ _ hk => by simp [Json.preorderItems] at hk
  | item :: others, hd => by
    rw [Json.layoutItems, List.append_assoc] at hd
    have hlink := link_of_drop hd
    have hnext := drop_of_append hd
    rw [Json.length_layout] at hnext
    have hstep : doc.stepsTo base = steps ++ [.index position] := by
      rw [stepsTo_of_container? hlink.1 hlink.2, hs]
    refine (holdsAll_preorder hstep item ⟨_, _, _, hd⟩).append ?_
    rw [Json.length_preorder]
    exact holdsAll_preorderItems hs others hnext

theorem holdsAll_preorderProps {base parent : Nat} {steps : List Step} {rest : List Node}
    (hs : doc.stepsTo parent = steps) : (props : List (String × Json)) →
    doc.nodes.toList.drop base = Json.layoutProps base parent props ++ rest →
    doc.HoldsAll base (Json.preorderProps steps props)
  | [], _ => fun k _ _ hk => by simp [Json.preorderProps] at hk
  | (key, value) :: others, hd => by
    rw [Json.layoutProps, List.append_assoc] at hd
    have hlink := link_of_drop hd
    have hnext := drop_of_append hd
    rw [Json.length_layout] at hnext
    have hstep : doc.stepsTo base = steps ++ [.key key] := by
      rw [stepsTo_of_container? hlink.1 hlink.2, hs]
    refine (holdsAll_preorder hstep value ⟨_, _, _, hd⟩).append ?_
    rw [Json.length_preorder]
    exact holdsAll_preorderProps hs others hnext

end

/-! ## Steps -/

theorem rel_itemHandles :
    (items : List Json) → ∀ {base : Nat} (position : Nat), doc.HoldsItems base items →
    Option.Rel doc.Holds (Json.itemHandles base items)[position]? items[position]?
  | [], _, _, _ => .none
  | _ :: _, _, 0, h => .some h.cons.1
  | _ :: rest, _, position + 1, h => rel_itemHandles rest position h.cons.2

theorem rel_propHandles (key : String) : (props : List (String × Json)) → ∀ {base : Nat},
    doc.HoldsProps base props →
    Option.Rel doc.Holds (Table.get? (Json.propHandles base props) key) (Table.get? props key)
  | [], _, _ => .none
  | (key', value) :: rest, base, h => by
    rw [Json.propHandles, Table.get?_cons, Table.get?_cons]
    split
    · exact .some h.cons.1
    · exact rel_propHandles key rest h.cons.2

/-- A step leads to the node that holds the value it leads to, or leads nowhere in both. -/
theorem Holds.follow? (h : doc.Holds node value) (step : Step) :
    Option.Rel doc.Holds (doc.follow? node step) (value.child? step) := by
  cases value with
  | array items =>
    unfold Document.follow?
    rw [h.array.1]
    cases step with
    | key name => exact .none
    | index position => exact rel_itemHandles items position h.array.2
  | object props =>
    unfold Document.follow?
    rw [h.object.1]
    exact rel_propHandles step.text props h.object.2
  | _ =>
    obtain ⟨container, step', rest, hd⟩ := h
    unfold Document.follow?
    rw [value?_of_drop hd]
    exact .none

theorem Holds.followAll? (h : doc.Holds node value) (steps : List Step) :
    Option.Rel doc.Holds (doc.followAll? node steps) (value.valueAt? steps) := by
  induction steps generalizing node value with
  | nil => exact .some h
  | cons step rest ih =>
    rw [Document.followAll?, Json.valueAt?]
    have hstep := h.follow? step
    generalize doc.follow? node step = x at hstep ⊢
    generalize value.child? step = y at hstep ⊢
    cases hstep with
    | none => exact .none
    | some hnext => exact ih hnext

/-! ## Subtrees are intervals -/

theorem Holds.getElem? (h : doc.Holds node value) : ∃ container step,
    ∀ k, k < value.size → doc.node? (node + k) = (value.layout node container step)[k]? := by
  obtain ⟨container, step, rest, hd⟩ := h
  refine ⟨container, step, fun k hk => ?_⟩
  rw [node?, ← Array.getElem?_toList, ← List.getElem?_drop, hd,
    List.getElem?_append_left (by rw [Json.length_layout]; exact hk)]

/-- A node and everything below it have the handles of an interval. -/
theorem Holds.within_iff {top : Nat} (h : doc.Holds top value) (node : Nat) :
    doc.Within top node ↔ top ≤ node ∧ node < top + value.size := by
  obtain ⟨container, step, hnodes⟩ := h.getElem?
  constructor
  · intro hw
    induction hw with
    | refl => exact ⟨Nat.le_refl _, Nat.lt_add_of_pos_right value.size_pos⟩
    | @step node parent hc _ ih =>
      obtain ⟨k, rfl⟩ := Nat.le.dest ih.1
      obtain ⟨step, value', _, hv, hl⟩ := link_of_container? hc
      obtain ⟨holder, hholder, rfl⟩ := node?_of_value? hv
      rw [hnodes k (by omega)] at hholder
      have := Json.layout_child top container _ k holder node value hholder
        (mem_children_of_links hl)
      omega
  · rintro ⟨hle, hlt⟩
    induction node using Nat.strongRecOn with
    | ind node ih =>
      obtain ⟨k, rfl⟩ := Nat.le.dest hle
      cases k with
      | zero => exact .refl
      | succ k =>
        have hget := hnodes (k + 1) (by omega)
        have hlen : k + 1 < (value.layout top container step).length := by
          rw [Json.length_layout]
          omega
        rw [List.getElem?_eq_getElem hlen] at hget
        rcases Json.layout_container top container step (k + 1) _ value
          (List.getElem?_eq_getElem hlen) with ⟨hzero, _⟩ | ⟨parent, hp, hle', hlt'⟩
        · cases hzero
        · have hc : doc.container? (top + (k + 1)) = some parent := by
            rw [container?, hget, Option.bind_some, hp]
          exact .step hc (ih parent hlt' hle' (by omega))

theorem HoldsItems.inOrder {items : List Json} (h : doc.HoldsItems base items) :
    (Json.itemHandles base items).Pairwise fun a b => ∀ node, doc.Within a node → node < b := by
  induction items generalizing base with
  | nil => exact .nil
  | cons item rest ih =>
    rw [Json.itemHandles, List.pairwise_cons]
    refine ⟨fun later hl node hw => ?_, ih h.cons.2⟩
    exact Nat.lt_of_lt_of_le ((h.cons.1.within_iff node).mp hw).2 (Json.mem_itemHandles hl).1

/-- The items of an array come one after the other, each with all that is below it. -/
theorem inOrder_itemsAt (id : NodeId) :
    (doc.itemsAt id).Pairwise fun a b => ∀ node, doc.Within a node → node < b := by
  cases hv : doc.value? id with
  | none => simp [itemsAt, hv]
  | some value =>
    cases value with
    | array items =>
      obtain ⟨node, hnode, _⟩ := node?_of_value? hv
      obtain ⟨json, hholds⟩ := doc.exists_holds (Array.getElem?_eq_some_iff.mp hnode).1
      cases json with
      | array values =>
        obtain ⟨hv', hitems⟩ := hholds.array
        rw [itemsAt, hv']
        exact hitems.inOrder
      | object props => cases hv.symm.trans hholds.object.1
      | null | bool _ | number _ | string _ =>
        obtain ⟨_, _, _, hd⟩ := hholds
        cases hv.symm.trans (value?_of_drop hd)
    | _ => simp [itemsAt, hv]

/-! ## Loading -/

/-- The document of a tree. -/
def ofTree (tree : Json) (h : tree.DistinctKeys) (definitions : NodeId)
    (hd : definitionsIn (tree.layout 0 none none).toArray = some definitions) : Document where
  nodes := (tree.layout 0 none none).toArray
  definitions
  nodes_layout := ⟨tree, h, rfl⟩
  definitions_eq := hd

end Document

/-- The value that has definitions and nothing else. -/
def schemaTree (definitions : List (String × Json)) : Json :=
  .object [("definitions", .object definitions)]

theorem layout_schemaTree (definitions : List (String × Json)) :
    (schemaTree definitions).layout 0 none none =
    ⟨.object [("definitions", 1)], none, none⟩ ::
      ⟨.object (Json.propHandles 2 definitions), some 0, some (.key "definitions")⟩ ::
        Json.layoutProps 2 1 definitions := by
  simp [schemaTree, Json.layout, Json.layoutProps, Json.propHandles]

theorem definitionsIn_schemaTree (definitions : List (String × Json)) :
    definitionsIn ((schemaTree definitions).layout 0 none none).toArray = some 1 := by
  rw [layout_schemaTree]
  rfl

namespace Document

/-- The document of some definitions. -/
def ofDefinitions (definitions : List (String × Json))
    (h : (schemaTree definitions).DistinctKeys := by decide +kernel) : Document :=
  ofTree (schemaTree definitions) h 1 (definitionsIn_schemaTree definitions)

/-- A value whose `definitions` are an object has a `definitions` object in its layout. -/
theorem exists_definitionsIn {value : Json} {definitions : List (String × Json)}
    (h : value.get? "definitions" = some (.object definitions)) :
    ∃ id, definitionsIn (value.layout 0 none none).toArray = some id := by
  cases value with
  | object props =>
    obtain ⟨id, container, step, rest, hget, hle, hdrop⟩ := Json.layoutProps_get? h 1 0
    have hid : ((Json.object props).layout 0 none none)[id]? =
        some ⟨.object (Json.propHandles (id + 1) definitions), container, step⟩ := by
      obtain ⟨k, rfl⟩ := Nat.le.dest hle
      rw [Nat.add_sub_cancel_left] at hdrop
      rw [Nat.add_comm 1 k] at hdrop ⊢
      rw [Json.layout, List.getElem?_cons_succ, ← Nat.add_zero k, ← List.getElem?_drop,
        Nat.zero_add, hdrop]
      rfl
    refine ⟨id, Option.filter_eq_some_iff.mpr ⟨?_, ?_⟩⟩
    · simpa [propIn, valueIn, Json.layout] using hget
    · rw [valueIn, List.getElem?_toArray, hid]
      rfl
  | _ => cases h

/-- A value without repeated keys, whose `definitions` are an object, is loaded as it is. -/
theorem exists_ofJson {value : Json} (hkeys : value.DistinctKeys)
    {definitions : List (String × Json)}
    (h : value.get? "definitions" = some (.object definitions)) :
    ∃ doc, ofJson value = .ok doc ∧ doc.nodes.toList = value.layout 0 none none := by
  obtain ⟨id, hid⟩ := exists_definitionsIn h
  have hnodes : ((value.canonical.alloc none none).run #[]).2.toList = value.layout 0 none none :=
    (Json.toList_alloc _).trans (congrArg _ (Json.canonical_of_distinctKeys value hkeys))
  cases value with
  | object props =>
    unfold ofJson
    dsimp only
    split
    · exact ⟨_, rfl, hnodes⟩
    · next hnone =>
      rw [← hnodes] at hid
      cases hid.symm.trans hnone
  | _ => cases h

/-- A JSON object without repeated keys, whose `definitions` are an object, can be loaded. The
document has one node for each node of the value: the one with handle `k` stands at the path of the
`k`-th value in pre-order and holds it, and what lies below it are the next handles, as many as that
value has nodes. A path leads to the node that holds the value at the path, if there is one. Reading
back the whole document gives the value. -/
theorem reads_back_what_it_loads {value : Json} (hkeys : value.DistinctKeys)
    {definitions : List (String × Json)}
    (hdefs : value.get? "definitions" = some (.object definitions)) :
    ∃ doc, ofJson value = .ok doc ∧ doc.size = value.size ∧
      (∀ k, k < value.size → ∃ steps part, (value.preorder [])[k]? = some (steps, part) ∧
        doc.pathOf k = ⟨steps⟩ ∧ doc.nodeAt? ⟨steps⟩ = some k ∧ doc.toJson k = part ∧
        ∀ node, doc.Within k node ↔ k ≤ node ∧ node < k + part.size) ∧
      (∀ path, (doc.nodeAt? path).map doc.toJson = value.valueAt? path.steps) ∧
      doc.toJson root = value := by
  obtain ⟨doc, hload, hlayout⟩ := exists_ofJson hkeys hdefs
  have hroot : doc.Holds root value := ⟨none, none, [], by rw [List.append_nil]; exact hlayout⟩
  have hsize : doc.size = value.size := by
    rw [size, ← Array.length_toList, hlayout, Json.length_layout]
  refine ⟨doc, hload, hsize, fun k hk => ?_, fun path => ?_, toJson_of_holds value hroot⟩
  · have hlen : k < (value.preorder []).length := by rwa [Json.length_preorder]
    have hget := List.getElem?_eq_getElem hlen
    obtain ⟨hholds, hsteps⟩ := holdsAll_preorder stepsTo_root value hroot k _ _ hget
    rw [root, Nat.zero_add] at hholds hsteps
    refine ⟨_, _, hget, congrArg Path.mk hsteps, ?_, toJson_of_holds _ hholds, hholds.within_iff⟩
    rw [← hsteps]
    exact nodeAt?_pathOf (hsize ▸ hk)
  · have hat := hroot.followAll? path.steps
    rw [nodeAt?]
    generalize doc.followAll? root path.steps = x at hat ⊢
    generalize value.valueAt? path.steps = y at hat ⊢
    cases hat with
    | none => rfl
    | some hpart => exact congrArg some (toJson_of_holds _ hpart)

/-- A definition with an element named by a digit. -/
def digitTree : Json :=
  .object [("definitions", .object [("A", .object [
    ("elements", .object [("1", .object [("type", .string "B")])]),
    ("keys", .array [.null, .string "x"])])])]

/-- The element is found by a position as well, and the nodes of the array follow those of the
elements. -/
theorem digitTree_reads_back :
    digitTree.DistinctKeys ∧ ∃ doc, ofJson digitTree = .ok doc ∧ doc.size = 9 ∧
      (doc.nodeAt? ⟨[.key "definitions", .key "A", .key "elements", .index 1]⟩).map doc.toJson =
        some (.object [("type", .string "B")]) ∧
      doc.pathOf 8 = ⟨[.key "definitions", .key "A", .key "keys", .index 1]⟩ ∧
      doc.toJson 8 = .string "x" ∧ doc.toJson root = digitTree := by
  have hkeys : digitTree.DistinctKeys := by decide +kernel
  obtain ⟨doc, hload, hsize, hnodes, hpaths, hroot⟩ := reads_back_what_it_loads hkeys rfl
  obtain ⟨steps, part, hget, hpath, _, hpart, _⟩ := hnodes 8 (by decide +kernel)
  cases hget
  exact ⟨hkeys, doc, hload, hsize, hpaths _, hpath, hpart, hroot⟩

end Document

end SchemaRefs
