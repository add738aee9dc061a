import SchemaRefs.Topology.Sources

/-!
# Containers and what they contain

The nodes of a document form a tree: a node is listed by its container, under the step that leads to
it, and by nothing else.

* `follow?_container`, `container?_of_follow?`: a step from `p` leads to a node exactly when `p` is
  its container and the step reads as its own.
* `Within top node`: the container chain of `node` passes through `top`. Containers are unique, so
  the nodes around a given one form a chain (`within_total`), and different children of one
  container have nothing in common (`within_disjoint`).
* `owner?_eq_some_iff`: the owner of a node is the definition that it lies within.
-/

namespace SchemaRefs

/-- The children of a payload, each with the step that leads to it. -/
def NodeValue.links : NodeValue → List (Step × NodeId)
  | .array items => items.zipIdx.map fun (child, position) => (.index position, child)
  | .object props => props.map fun (key, child) => (.key key, child)
  | _ => []

namespace Json

variable {nodes : List Node} {base parent : Nat} {node : Node}

/-! ## Links of a layout -/

theorem layout_head (base : Nat) (container : Option Nat) (step : Option Step) (value : Json) :
    ∃ node, (layout base container step value)[0]? = some node ∧ node.container = container ∧
      node.step = step := by
  cases value <;> simp [layout]

theorem layoutItems_handle {step : Step} {child : Nat} (items : List Json) :
    ∀ base position, (step, child) ∈
        ((itemHandles base items).zipIdx position).map (fun p => (Step.index p.2, p.1)) →
      base ≤ child ∧ ∃ node, (layoutItems base parent position items)[child - base]? = some node ∧
        node.container = some parent ∧ node.step = some step := by
  induction items with
  | nil => simp [itemHandles]
  | cons item rest ih =>
    intro base position h
    rw [itemHandles, List.zipIdx_cons, List.map_cons, List.mem_cons] at h
    rw [layoutItems]
    rcases h with h | h
    · obtain ⟨rfl, rfl⟩ := Prod.mk.inj h
      obtain ⟨node, hn, hc, hs⟩ :=
        layout_head child (some parent) (some (.index position)) item
      refine ⟨Nat.le_refl _, node, ?_, hc, hs⟩
      rw [Nat.sub_self, List.getElem?_append_left (by rw [length_layout]; exact item.size_pos), hn]
    · obtain ⟨hle, node, hn, hcs⟩ := ih _ _ h
      refine ⟨by omega, node, ?_, hcs⟩
      rw [List.getElem?_append_right (by rw [length_layout]; omega), length_layout]
      rwa [Nat.sub_add_eq] at hn

theorem layoutProps_handle {step : Step} {child : Nat} (props : List (String × Json)) : ∀ base,
    (step, child) ∈ (propHandles base props).map (fun p => (Step.key p.1, p.2)) →
      base ≤ child ∧ ∃ node, (layoutProps base parent props)[child - base]? = some node ∧
        node.container = some parent ∧ node.step = some step := by
  induction props with
  | nil => simp [propHandles]
  | cons pair rest ih =>
    obtain ⟨key, value⟩ := pair
    intro base h
    rw [propHandles, List.map_cons, List.mem_cons] at h
    rw [layoutProps]
    rcases h with h | h
    · obtain ⟨rfl, rfl⟩ := Prod.mk.inj h
      obtain ⟨node, hn, hc, hs⟩ := layout_head child (some parent) (some (.key key)) value
      refine ⟨Nat.le_refl _, node, ?_, hc, hs⟩
      rw [Nat.sub_self, List.getElem?_append_left (by rw [length_layout]; exact value.size_pos), hn]
    · obtain ⟨hle, node, hn, hcs⟩ := ih _ h
      refine ⟨by omega, node, ?_, hcs⟩
      rw [List.getElem?_append_right (by rw [length_layout]; omega), length_layout]
      rwa [Nat.sub_add_eq] at hn

/-- The list of nodes `nodes`, of which the first has handle `base`, holds for each link of `node` a
node that names `parent` as its container and the link's step as its own. -/
def LinksBack (nodes : List Node) (base : Nat) (node : Node) (parent : Nat) : Prop :=
  ∀ step child, (step, child) ∈ node.value.links →
    base ≤ child ∧ ∃ node', nodes[child - base]? = some node' ∧ node'.container = some parent ∧
      node'.step = some step

theorem LinksBack.append_left (h : LinksBack nodes base node parent) (more : List Node) :
    LinksBack (nodes ++ more) base node parent := by
  intro step child hl
  obtain ⟨hle, node', hn, hcs⟩ := h step child hl
  have hlt := (List.getElem?_eq_some_iff.mp hn).1
  exact ⟨hle, node', by rw [List.getElem?_append_left hlt, hn], hcs⟩

theorem LinksBack.append_right
    (front : List Node) (h : LinksBack nodes (base + front.length) node parent) :
    LinksBack (front ++ nodes) base node parent := by
  intro step child hl
  obtain ⟨hle, node', hn, hcs⟩ := h step child hl
  refine ⟨by omega, node', ?_, hcs⟩
  rw [List.getElem?_append_right (by omega), ← hn]
  congr 1
  omega

mutual

/-- Every link of a layout is answered by the node that it leads to. -/
theorem layout_link (base : Nat) (container : Option Nat) (step : Option Step) (k : Nat)
    (node : Node) : (value : Json) → (layout base container step value)[k]? = some node →
    LinksBack (layout base container step value) base node (base + k)
  | .null, h | .bool _, h | .number _, h | .string _, h => by
    cases k with
    | zero =>
      simp only [layout, List.getElem?_cons_zero, Option.some.injEq] at h
      subst h
      intro _ _ hl
      simp [NodeValue.links] at hl
    | succ k => simp [layout] at h
  | .array items, h => by
    rw [layout] at h ⊢
    rw [← List.singleton_append] at h ⊢
    apply LinksBack.append_right
    cases k with
    | zero =>
      simp only [List.singleton_append, List.getElem?_cons_zero, Option.some.injEq] at h
      subst h
      exact fun _ _ hl => layoutItems_handle items _ _ hl
    | succ k =>
      rw [List.singleton_append, List.getElem?_cons_succ] at h
      have := layoutItems_link (base + 1) base 0 k node items h
      rwa [Nat.add_right_comm] at this
  | .object props, h => by
    rw [layout] at h ⊢
    rw [← List.singleton_append] at h ⊢
    apply LinksBack.append_right
    cases k with
    | zero =>
      simp only [List.singleton_append, List.getElem?_cons_zero, Option.some.injEq] at h
      subst h
      exact fun _ _ hl => layoutProps_handle props _ hl
    | succ k =>
      rw [List.singleton_append, List.getElem?_cons_succ] at h
      have := layoutProps_link (base + 1) base k node props h
      rwa [Nat.add_right_comm] at this

theorem layoutItems_link (base parent : Nat) (position k : Nat) (node : Node) :
    (items : List Json) → (layoutItems base parent position items)[k]? = some node →
    LinksBack (layoutItems base parent position items) base node (base + k)
  | [], h => by simp [layoutItems] at h
  | item :: rest, h => by
    rw [layoutItems] at h ⊢
    rcases layout_append_cases h with ⟨hk, h⟩ | ⟨hk, h⟩
    · exact (layout_link base _ _ k node item h).append_left _
    · apply LinksBack.append_right
      rw [length_layout]
      have := layoutItems_link (base + item.size) parent (position + 1) _ node rest h
      rwa [show base + item.size + (k - item.size) = base + k by omega] at this

theorem layoutProps_link (base parent : Nat) (k : Nat) (node : Node) :
    (props : List (String × Json)) → (layoutProps base parent props)[k]? = some node →
    LinksBack (layoutProps base parent props) base node (base + k)
  | [], h => by simp [layoutProps] at h
  | (key, value) :: rest, h => by
    rw [layoutProps] at h ⊢
    rcases layout_append_cases h with ⟨hk, h⟩ | ⟨hk, h⟩
    · exact (layout_link base _ _ k node value h).append_left _
    · apply LinksBack.append_right
      rw [length_layout]
      have := layoutProps_link (base + value.size) parent _ node rest h
      rwa [show base + value.size + (k - value.size) = base + k by omega] at this

end

/-! ## Every node is listed -/

/-- Node `node`, whose handle is `id`, is listed by a node of `nodes`, of which the first has handle
`base`. -/
def Listed (nodes : List Node) (base : Nat) (node : Node) (id : Nat) : Prop :=
  ∃ parent step holder, node.container = some parent ∧ node.step = some step ∧ base ≤ parent ∧
    nodes[parent - base]? = some holder ∧ (step, id) ∈ holder.value.links

theorem Listed.append_left {id : Nat}
    (h : Listed nodes base node id) (more : List Node) : Listed (nodes ++ more) base node id := by
  obtain ⟨parent, step, holder, hc, hs, hle, hh, hl⟩ := h
  have hlt := (List.getElem?_eq_some_iff.mp hh).1
  exact ⟨parent, step, holder, hc, hs, hle, by rw [List.getElem?_append_left hlt, hh], hl⟩

theorem Listed.append_right {id : Nat}
    (front : List Node) (h : Listed nodes (base + front.length) node id) :
    Listed (front ++ nodes) base node id := by
  obtain ⟨parent, step, holder, hc, hs, hle, hh, hl⟩ := h
  refine ⟨parent, step, holder, hc, hs, by omega, ?_, hl⟩
  rw [List.getElem?_append_right (by omega), ← hh]
  congr 1
  omega

/-- What can be said of a node in the middle of a list of children: it is one of them, or it is
listed below them. -/
def ListedOr (nodes : List Node) (base : Nat) (node : Node) (id parent : Nat)
    (links : List (Step × NodeId)) : Prop :=
  (∃ step, node.container = some parent ∧ node.step = some step ∧ (step, id) ∈ links) ∨
    Listed nodes base node id

mutual

/-- Every node of a layout but the first is listed by its container. -/
theorem layout_listed (base : Nat) (container : Option Nat) (step : Option Step) (k : Nat)
    (node : Node) : (value : Json) → (layout base container step value)[k]? = some node →
    (k = 0 ∧ node.container = container ∧ node.step = step) ∨
      Listed (layout base container step value) base node (base + k)
  | .null, h | .bool _, h | .number _, h | .string _, h => by
    cases k with
    | zero =>
      simp only [layout, List.getElem?_cons_zero, Option.some.injEq] at h
      subst h
      exact .inl ⟨rfl, rfl, rfl⟩
    | succ k => simp [layout] at h
  | .array items, h => by
    cases k with
    | zero =>
      simp only [layout, List.getElem?_cons_zero, Option.some.injEq] at h
      subst h
      exact .inl ⟨rfl, rfl, rfl⟩
    | succ k =>
      rw [layout] at h ⊢
      rw [List.getElem?_cons_succ] at h
      have := layoutItems_listed (base + 1) base 0 k node items h
      rw [Nat.add_right_comm] at this
      rcases this with ⟨s, hc, hs, hl⟩ | hl
      · exact .inr ⟨base, s, ⟨.array _, container, step⟩, hc, hs, Nat.le_refl _,
          by rw [Nat.sub_self]; rfl, hl⟩
      · exact .inr (hl.append_right [_])
  | .object props, h => by
    cases k with
    | zero =>
      simp only [layout, List.getElem?_cons_zero, Option.some.injEq] at h
      subst h
      exact .inl ⟨rfl, rfl, rfl⟩
    | succ k =>
      rw [layout] at h ⊢
      rw [List.getElem?_cons_succ] at h
      have := layoutProps_listed (base + 1) base k node props h
      rw [Nat.add_right_comm] at this
      rcases this with ⟨s, hc, hs, hl⟩ | hl
      · exact .inr ⟨base, s, ⟨.object _, container, step⟩, hc, hs, Nat.le_refl _,
          by rw [Nat.sub_self]; rfl, hl⟩
      · exact .inr (hl.append_right [_])

theorem layoutItems_listed (base parent : Nat) (position k : Nat) (node : Node) :
    (items : List Json) → (layoutItems base parent position items)[k]? = some node →
    ListedOr (layoutItems base parent position items) base node (base + k) parent
      (((itemHandles base items).zipIdx position).map fun p => (Step.index p.2, p.1))
  | [], h => by simp [layoutItems] at h
  | item :: rest, h => by
    rw [layoutItems] at h ⊢
    rcases layout_append_cases h with ⟨hk, h⟩ | ⟨hk, h⟩
    · rcases layout_listed base _ _ k node item h with ⟨rfl, hc, hs⟩ | hl
      · exact .inl ⟨_, hc, hs, by simp [itemHandles]⟩
      · exact .inr (hl.append_left _)
    · have := layoutItems_listed (base + item.size) parent (position + 1) _ node rest h
      rw [show base + item.size + (k - item.size) = base + k by omega] at this
      rcases this with ⟨s, hc, hs, hl⟩ | hl
      · refine .inl ⟨s, hc, hs, ?_⟩
        rw [itemHandles, List.zipIdx_cons, List.map_cons]
        exact List.mem_cons_of_mem _ hl
      · refine .inr (Listed.append_right _ ?_)
        rwa [length_layout]

theorem layoutProps_listed (base parent : Nat) (k : Nat) (node : Node) :
    (props : List (String × Json)) → (layoutProps base parent props)[k]? = some node →
    ListedOr (layoutProps base parent props) base node (base + k) parent
      ((propHandles base props).map fun p => (Step.key p.1, p.2))
  | [], h => by simp [layoutProps] at h
  | (key, value) :: rest, h => by
    rw [layoutProps] at h ⊢
    rcases layout_append_cases h with ⟨hk, h⟩ | ⟨hk, h⟩
    · rcases layout_listed base _ _ k node value h with ⟨rfl, hc, hs⟩ | hl
      · exact .inl ⟨_, hc, hs, by simp [propHandles]⟩
      · exact .inr (hl.append_left _)
    · have := layoutProps_listed (base + value.size) parent _ node rest h
      rw [show base + value.size + (k - value.size) = base + k by omega] at this
      rcases this with ⟨s, hc, hs, hl⟩ | hl
      · refine .inl ⟨s, hc, hs, ?_⟩
        rw [propHandles, List.map_cons]
        exact List.mem_cons_of_mem _ hl
      · refine .inr (Listed.append_right _ ?_)
        rwa [length_layout]

end

/-! ## Distinct keys -/

theorem keys_propHandles (props : List (String × Json)) :
    ∀ base, Table.keys (propHandles base props) = Table.keys props := by
  induction props with
  | nil => exact fun _ => rfl
  | cons pair rest ih =>
    obtain ⟨key, value⟩ := pair
    intro base
    rw [propHandles, Table.keys_cons, Table.keys_cons, ih]

mutual

/-- The objects of a layout bind each key once, if those of the value do. -/
theorem nodup_keys_layout (base : Nat) (container : Option Nat) (step : Option Step) (k : Nat)
    (node : Node) (links : List (String × NodeId)) (hv : node.value = .object links) :
    (value : Json) → value.DistinctKeys →
    (layout base container step value)[k]? = some node → (Table.keys links).Nodup
  | .null, _, h | .bool _, _, h | .number _, _, h | .string _, _, h => by
    cases k with
    | zero =>
      simp only [layout, List.getElem?_cons_zero, Option.some.injEq] at h
      subst h
      cases hv
    | succ k => simp [layout] at h
  | .array items, hd, h => by
    rw [layout] at h
    cases k with
    | zero =>
      rw [List.getElem?_cons_zero, Option.some.injEq] at h
      subst h
      cases hv
    | succ k => exact nodup_keys_layoutItems _ _ _ k node links hv items hd h
  | .object props, hd, h => by
    rw [layout] at h
    rw [DistinctKeys] at hd
    cases k with
    | zero =>
      rw [List.getElem?_cons_zero, Option.some.injEq] at h
      subst h
      cases hv
      rw [keys_propHandles]
      exact hd.1
    | succ k => exact nodup_keys_layoutProps _ _ k node links hv props hd.2 h

theorem nodup_keys_layoutItems (base parent : Nat) (position k : Nat) (node : Node)
    (links : List (String × NodeId)) (hv : node.value = .object links) :
    (items : List Json) → DistinctKeysItems items →
    (layoutItems base parent position items)[k]? = some node → (Table.keys links).Nodup
  | [], _, h => by simp [layoutItems] at h
  | item :: rest, hd, h => by
    rw [layoutItems] at h
    rw [DistinctKeysItems] at hd
    rcases layout_append_cases h with ⟨_, h⟩ | ⟨_, h⟩
    · exact nodup_keys_layout base _ _ k node links hv item hd.1 h
    · exact nodup_keys_layoutItems _ _ _ _ node links hv rest hd.2 h

theorem nodup_keys_layoutProps (base parent : Nat) (k : Nat) (node : Node)
    (links : List (String × NodeId)) (hv : node.value = .object links) :
    (props : List (String × Json)) → DistinctKeysProps props →
    (layoutProps base parent props)[k]? = some node → (Table.keys links).Nodup
  | [], _, h => by simp [layoutProps] at h
  | (key, value) :: rest, hd, h => by
    rw [layoutProps] at h
    rw [DistinctKeysProps] at hd
    rcases layout_append_cases h with ⟨_, h⟩ | ⟨_, h⟩
    · exact nodup_keys_layout base _ _ k node links hv value hd.1 h
    · exact nodup_keys_layoutProps _ _ _ node links hv rest hd.2 h

end

end Json

theorem Table.get?_of_mem {α : Type} {table : List (String × α)} {key : String} {value : α}
    (hd : (Table.keys table).Nodup) (h : (key, value) ∈ table) :
    Table.get? table key = some value := by
  induction table with
  | nil => cases h
  | cons pair rest ih =>
    obtain ⟨k, v⟩ := pair
    rw [Table.keys_cons, List.nodup_cons] at hd
    rw [Table.get?_cons]
    rcases List.mem_cons.mp h with heq | hr
    · cases heq
      exact if_pos rfl
    · have hne : key ≠ k := by
        rintro rfl
        exact hd.1 (List.mem_map.mpr ⟨(key, value), hr, rfl⟩)
      rw [if_neg hne, ih hd.2 hr]

namespace Document

variable {doc : Document} {a b child id parent : NodeId} {step : Step} {key : String}

/-! ## Containers and steps -/

theorem node?_of_value? {value : NodeValue} (h : doc.value? id = some value) :
    ∃ node, doc.node? id = some node ∧ node.value = value :=
  Option.map_eq_some_iff.mp h

theorem container?_of_link {value : NodeValue}
    (hv : doc.value? id = some value) (hl : (step, child) ∈ value.links) :
    doc.container? child = some id ∧ doc.step? child = some step := by
  obtain ⟨tree, _, hlay⟩ := doc.nodes_layout
  obtain ⟨node, hn, rfl⟩ := node?_of_value? hv
  rw [node?, ← Array.getElem?_toList, hlay] at hn
  obtain ⟨_, node', hn', hc, hs⟩ := tree.layout_link 0 none none id node hn step child hl
  rw [← hlay, Array.getElem?_toList, Nat.sub_zero] at hn'
  rw [Nat.zero_add] at hc
  simp only [container?, step?, node?, hn', Option.bind_some]
  exact ⟨hc, hs⟩

theorem link_of_container? (h : doc.container? child = some parent) :
    ∃ step value, doc.step? child = some step ∧ doc.value? parent = some value ∧
      (step, child) ∈ value.links := by
  obtain ⟨tree, _, hlay⟩ := doc.nodes_layout
  obtain ⟨node, hn, hp⟩ := Option.bind_eq_some_iff.mp h
  have hn' := hn
  rw [node?, ← Array.getElem?_toList, hlay] at hn'
  rcases tree.layout_listed 0 none none child node hn' with ⟨_, hc, _⟩ | hlist
  · rw [hc] at hp
    cases hp
  · obtain ⟨p, step, holder, hc, hs, _, hh, hl⟩ := hlist
    obtain rfl : p = parent := Option.some.inj (hc.symm.trans hp)
    rw [Nat.zero_add] at hl
    rw [← hlay, Array.getElem?_toList, Nat.sub_zero] at hh
    exact ⟨step, holder.value, by simp [step?, hn, hs], by simp [value?, valueIn, hh], hl⟩

theorem nodup_keys_entries (id : NodeId) : (Table.keys (doc.entries id)).Nodup := by
  obtain ⟨tree, hd, hlay⟩ := doc.nodes_layout
  unfold entries
  split
  · next props hv =>
    obtain ⟨node, hn, hval⟩ := node?_of_value? hv
    rw [node?, ← Array.getElem?_toList, hlay] at hn
    exact tree.nodup_keys_layout 0 none none id node props hval hd hn
  · exact List.nodup_nil

theorem container?_of_mem_entries (h : (key, child) ∈ doc.entries id) :
    doc.container? child = some id ∧ doc.step? child = some (.key key) := by
  unfold entries at h
  split at h
  · next props hv => exact container?_of_link hv (List.mem_map.mpr ⟨_, h, rfl⟩)
  · cases h

theorem container?_of_prop? (h : doc.prop? id key = some child) :
    doc.container? child = some id ∧ doc.step? child = some (.key key) :=
  container?_of_mem_entries (mem_entries_of_prop? h)

theorem value?_of_mem_itemsAt {item : NodeId} (h : item ∈ doc.itemsAt id) :
    doc.value? id = some (.array (doc.itemsAt id)) := by
  unfold itemsAt at h ⊢
  split at h
  · next items hv => rw [hv]
  · cases h

theorem value?_of_mem_entries {entry : String × NodeId} (h : entry ∈ doc.entries id) :
    doc.value? id = some (.object (doc.entries id)) := by
  unfold entries at h ⊢
  split at h
  · next props hv => rw [hv]
  · cases h

theorem container?_of_getElem?_itemsAt {position : Nat}
    (h : (doc.itemsAt id)[position]? = some child) :
    doc.container? child = some id ∧ doc.step? child = some (.index position) := by
  unfold itemsAt at h
  split at h
  · next items hv =>
    refine container?_of_link hv (List.mem_map.mpr ⟨(child, position), ?_, rfl⟩)
    exact List.mk_mem_zipIdx_iff_getElem?.mpr h
  · simp at h

theorem container?_of_mem_itemsAt (h : child ∈ doc.itemsAt id) :
    doc.container? child = some id ∧ ∃ position, doc.step? child = some (.index position) := by
  obtain ⟨position, hp⟩ := List.mem_iff_getElem?.mp h
  have := container?_of_getElem?_itemsAt hp
  exact ⟨this.1, position, this.2⟩

theorem exists_list_of_mem_propItems (h : child ∈ doc.propItems id key) :
    ∃ list, doc.prop? id key = some list ∧ child ∈ doc.itemsAt list := by
  unfold propItems at h
  split at h
  · next list hl => exact ⟨list, hl, h⟩
  · cases h

theorem entries_of_object {props : List (String × NodeId)}
    (h : doc.value? id = some (.object props)) : doc.entries id = props := by
  simp [entries, h]

theorem get?_entries (id : NodeId) (key : String) :
    Table.get? (doc.entries id) key = doc.prop? id key := by
  unfold entries prop? propIn value?
  split <;> rfl

theorem prop?_of_mem_entries (h : (key, child) ∈ doc.entries id) :
    doc.prop? id key = some child := by
  rw [← get?_entries]
  exact Table.get?_of_mem (doc.nodup_keys_entries id) h

/-- A step leads to a node of which the start is the container. The step reads as the node's own. -/
theorem container?_of_follow? (h : doc.follow? id step = some child) :
    doc.container? child = some id ∧
      (doc.step? child = some step ∨ doc.step? child = some (.key step.text)) := by
  unfold follow? at h
  split at h
  · next props hv =>
    have hm := Table.mem_of_get? h
    rw [← entries_of_object hv] at hm
    exact ⟨(container?_of_mem_entries hm).1, .inr (container?_of_mem_entries hm).2⟩
  · next items position hv =>
    have hi : (doc.itemsAt id)[position]? = some child := by rwa [itemsAt, hv]
    exact ⟨(container?_of_getElem?_itemsAt hi).1, .inl (container?_of_getElem?_itemsAt hi).2⟩
  · cases h

/-- The own step of a node leads to it from its container. -/
theorem follow?_container (h : doc.container? child = some parent) :
    ∃ step, doc.step? child = some step ∧ doc.follow? parent step = some child := by
  obtain ⟨step, value, hs, hv, hl⟩ := link_of_container? h
  refine ⟨step, hs, ?_⟩
  cases value with
  | array items =>
    obtain ⟨⟨id, position⟩, hm, heq⟩ := List.mem_map.mp hl
    obtain ⟨rfl, rfl⟩ := Prod.mk.inj heq
    simp only [follow?, hv]
    exact List.mk_mem_zipIdx_iff_getElem?.mp hm
  | object props =>
    obtain ⟨⟨key, id⟩, hm, heq⟩ := List.mem_map.mp hl
    obtain ⟨rfl, rfl⟩ := Prod.mk.inj heq
    simp only [follow?, hv, Step.text]
    have hd := doc.nodup_keys_entries parent
    rw [entries_of_object hv] at hd
    exact Table.get?_of_mem hd hm
  | _ => simp [NodeValue.links] at hl

theorem follow?_of_container? (hc : doc.container? id = some parent)
    (hs : doc.step? id = some step) : doc.follow? parent step = some id := by
  obtain ⟨step', hs', hf⟩ := follow?_container hc
  rw [hs] at hs'
  cases hs'
  exact hf

theorem lt_size_of_container? (h : doc.container? id = some parent) :
    id < doc.size := by
  obtain ⟨node, hn, _⟩ := Option.bind_eq_some_iff.mp h
  exact (Array.getElem?_eq_some_iff.mp hn).1

/-! ## What lies within a node -/

variable (doc) in
/-- The node is `top`, or lies below it. -/
inductive Within (top : NodeId) : NodeId → Prop where
  | refl : Within top top
  | step {node parent : NodeId} : doc.container? node = some parent → Within top parent →
      Within top node

theorem Within.trans {c : NodeId} (hab : doc.Within a b) (hbc : doc.Within b c) :
    doc.Within a c := by
  induction hbc with
  | refl => exact hab
  | step hc _ ih => exact .step hc ih

theorem Within.le {a b : Nat} (h : doc.Within a b) : a ≤ b := by
  induction h with
  | refl => exact Nat.le_refl _
  | step hc _ ih => exact Nat.le_of_lt (Nat.lt_of_le_of_lt ih (container?_lt hc))

theorem Within.antisymm (hab : doc.Within a b) (hba : doc.Within b a) : a = b :=
  Nat.le_antisymm hab.le hba.le

theorem within_of_container? (h : doc.container? b = some a) : doc.Within a b :=
  .step h .refl

theorem within_of_mem_propItems (h : child ∈ doc.propItems id key) :
    doc.Within id child := by
  obtain ⟨list, hlist, hitem⟩ := exists_list_of_mem_propItems h
  exact .step (container?_of_mem_itemsAt hitem).1
    (within_of_container? (container?_of_prop? hlist).1)

theorem Within.container (h : doc.Within a b) (hne : a ≠ b)
    (hp : doc.container? b = some parent) : doc.Within a parent := by
  cases h with
  | refl => exact absurd rfl hne
  | step hc hw =>
    obtain rfl := Option.some.inj (hc.symm.trans hp)
    exact hw

/-- The nodes around a given one form a chain. -/
theorem within_total {node : NodeId} (ha : doc.Within a node) (hb : doc.Within b node) :
    doc.Within a b ∨ doc.Within b a := by
  induction ha with
  | refl => exact .inr hb
  | @step node parent hc hw ih =>
    by_cases hne : b = node
    · subst hne
      exact .inl (.step hc hw)
    · exact ih (hb.container hne hc)

/-- A child that lies around another child of the same container is that child. -/
theorem eq_of_within_of_container? (ha : doc.container? a = some parent)
    (hb : doc.container? b = some parent) (h : doc.Within a b) : a = b := by
  by_cases hne : a = b
  · exact hne
  · have hle := (h.container hne hb).le
    exact absurd (container?_lt ha) (Nat.not_lt.mpr hle)

theorem within_disjoint {node : NodeId} (ha : doc.container? a = some parent)
    (hb : doc.container? b = some parent) (hna : doc.Within a node) (hnb : doc.Within b node) :
    a = b := by
  rcases within_total hna hnb with h | h
  · exact eq_of_within_of_container? ha hb h
  · exact (eq_of_within_of_container? hb ha h).symm

/-! ## Owners -/

theorem isDefinition_iff :
    doc.isDefinition id = true ↔ doc.container? id = some doc.definitions := by
  simp [isDefinition]

/-- No definition lies within another one. -/
theorem eq_of_within_of_isDefinition (ha : doc.isDefinition a = true)
    (hb : doc.isDefinition b = true) (h : doc.Within a b) : a = b :=
  eq_of_within_of_container? (isDefinition_iff.mp ha) (isDefinition_iff.mp hb) h

theorem owner?_of_isDefinition (h : doc.isDefinition id = true) :
    doc.owner? id = some id := by
  rw [owner?, if_pos h]

/-- The owner of a node is the definition that it lies within. -/
theorem owner?_eq_some_iff {owner : NodeId} :
    doc.owner? id = some owner ↔ doc.isDefinition owner = true ∧ doc.Within owner id := by
  constructor
  · intro h
    induction id using owner?.induct doc with
    | case1 id hd =>
      rw [owner?_of_isDefinition hd] at h
      cases h
      exact ⟨hd, .refl⟩
    | case2 id hd parent hc ih =>
      rw [owner?, if_neg hd] at h
      split at h
      · next p hp =>
        obtain rfl := Option.some.inj (hp.symm.trans hc)
        exact ⟨(ih h).1, .step hc (ih h).2⟩
      · cases h
    | case3 id hd hc =>
      rw [owner?, if_neg hd] at h
      split at h
      · next p hp =>
        rw [hc] at hp
        cases hp
      · cases h
  · rintro ⟨hd, hw⟩
    induction hw with
    | refl => exact owner?_of_isDefinition hd
    | @step node parent hc hw ih =>
      by_cases hn : doc.isDefinition node = true
      · rw [owner?_of_isDefinition hn,
          eq_of_within_of_isDefinition hd hn (.step hc hw)]
      · rw [owner?, if_neg hn]
        split
        · next p hp =>
          obtain rfl := Option.some.inj (hp.symm.trans hc)
          exact ih
        · next hp =>
          rw [hc] at hp
          cases hp

theorem lt_size_of_owner? {owner : NodeId} (h : doc.owner? id = some owner) : id < doc.size := by
  obtain ⟨hd, hw⟩ := owner?_eq_some_iff.mp h
  cases hw with
  | refl => exact lt_size_of_container? (isDefinition_iff.mp hd)
  | step hc _ => exact lt_size_of_container? hc

/-- What holds of a node as soon as it holds of all later ones holds of every node. -/
theorem descending_induction (doc : Document) {P : NodeId → Prop}
    (step : ∀ a : Nat, (∀ c : Nat, a < c → c < doc.size → P c) → P a) (node : NodeId) : P node := by
  have key : ∀ (n a : Nat), doc.size - a ≤ n → P a := by
    intro n
    induction n with
    | zero => exact fun a ha => step a fun c hc hs => absurd hs (by omega)
    | succ n ih => exact fun a ha => step a fun c hc hs => ih c (by omega)
  exact key (doc.size - node) node (Nat.le_refl _)

theorem prop?_of_size_le (h : doc.size ≤ id) (key : String) : doc.prop? id key = none := by
  have hnode : doc.nodes[id]? = none := Array.getElem?_eq_none h
  rw [prop?, propIn, valueIn, hnode]
  rfl

end Document

end SchemaRefs
