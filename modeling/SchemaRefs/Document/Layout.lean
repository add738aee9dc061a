import SchemaRefs.Json.Basic
import SchemaRefs.NodeId
import SchemaRefs.Path

/-!
# The layout of a value

A value is laid out as the list of its nodes in pre-order: a container first, then its children in
order, each with everything below it before the next. A node refers to its children and to its
container by handle, which is the position in this order.

Main statements: the layout has one node per node of the value (`length_layout`), a child comes
after its container and within its subtree (`layout_child`), and a container comes before what it
contains (`layout_container`).
-/

namespace SchemaRefs

/-- The payload of a node, with children given by handle. -/
inductive NodeValue where
  | null
  | bool (value : Bool)
  | number (value : Number)
  | string (value : String)
  | array (items : List NodeId)
  | object (props : List (String × NodeId))
deriving Repr, DecidableEq, Inhabited

/-- The name of a payload's type. -/
def NodeValue.typeName : NodeValue → String
  | .null => "null"
  | .bool _ => "boolean"
  | .number _ => "number"
  | .string _ => "string"
  | .array _ => "array"
  | .object _ => "object"

/-- The children of a payload, in order. -/
def NodeValue.children : NodeValue → List NodeId
  | .array items => items
  | .object props => props.map Prod.snd
  | _ => []

/-- A node of a document. -/
structure Node where
  value : NodeValue
  /-- The array or object that holds the node; the root has none. -/
  container : Option NodeId
  /-- How the node is reached from its container. -/
  step : Option Step
deriving Repr, DecidableEq, Inhabited

namespace Json

/-- The handles of consecutive values that are laid out from `base` on. -/
def itemHandles (base : Nat) : List Json → List NodeId
  | [] => []
  | item :: rest => base :: itemHandles (base + item.size) rest

/-- The keys of consecutive properties with the handles of their values. -/
def propHandles (base : Nat) : List (String × Json) → List (String × NodeId)
  | [] => []
  | (key, value) :: rest => (key, base) :: propHandles (base + value.size) rest

mutual

/-- The nodes of a value whose root has handle `base`. -/
def layout (base : Nat) (container : Option NodeId) (step : Option Step) : Json → List Node
  | .null => [⟨.null, container, step⟩]
  | .bool b => [⟨.bool b, container, step⟩]
  | .number n => [⟨.number n, container, step⟩]
  | .string s => [⟨.string s, container, step⟩]
  | .array items =>
    ⟨.array (itemHandles (base + 1) items), container, step⟩ ::
      layoutItems (base + 1) base 0 items
  | .object props =>
    ⟨.object (propHandles (base + 1) props), container, step⟩ ::
      layoutProps (base + 1) base props

/-- The nodes of the items of array `parent`, from position `position` on. -/
def layoutItems (base parent : Nat) (position : Nat) : List Json → List Node
  | [] => []
  | item :: rest =>
    layout base (some parent) (some (.index position)) item ++
      layoutItems (base + item.size) parent (position + 1) rest

/-- The nodes of the properties of object `parent`. -/
def layoutProps (base parent : Nat) : List (String × Json) → List Node
  | [] => []
  | (key, value) :: rest =>
    layout base (some parent) (some (.key key)) value ++
      layoutProps (base + value.size) parent rest

end

/-! ## Length -/

mutual

theorem length_layout (base : Nat) (container : Option Nat) (step : Option Step) :
    (value : Json) → (layout base container step value).length = value.size
  | .null | .bool _ | .number _ | .string _ => by simp [layout, size]
  | .array items => by
    simp [layout, size, length_layoutItems (base + 1) base 0 items, Nat.add_comm]
  | .object props => by
    simp [layout, size, length_layoutProps (base + 1) base props, Nat.add_comm]

theorem length_layoutItems (base parent : Nat) (position : Nat) :
    (items : List Json) → (layoutItems base parent position items).length = sizeItems items
  | [] => by simp [layoutItems, sizeItems]
  | item :: rest => by
    simp [layoutItems, sizeItems, length_layout base _ _ item, length_layoutItems _ parent _ rest]

theorem length_layoutProps (base parent : Nat) :
    (props : List (String × Json)) → (layoutProps base parent props).length = sizeProps props
  | [] => by simp [layoutProps, sizeProps]
  | (key, value) :: rest => by
    simp [layoutProps, sizeProps, length_layout base _ _ value, length_layoutProps _ parent rest]

end

/-- A node of a value and of what is laid out after it belongs to the one or to the other. -/
theorem layout_append_cases {base k : Nat} {container : Option Nat} {step : Option Step}
    {value : Json} {more : List Node} {node : Node}
    (h : (layout base container step value ++ more)[k]? = some node) :
    (k < value.size ∧ (layout base container step value)[k]? = some node) ∨
      (value.size ≤ k ∧ more[k - value.size]? = some node) := by
  rw [← length_layout base container step value]
  by_cases hk : k < (layout base container step value).length
  · rw [List.getElem?_append_left hk] at h
    exact .inl ⟨hk, h⟩
  · rw [List.getElem?_append_right (Nat.le_of_not_lt hk)] at h
    exact .inr ⟨Nat.le_of_not_lt hk, h⟩

/-! ## Children come after their container -/

theorem mem_itemHandles {base child : Nat} {items : List Json}
    (h : child ∈ itemHandles base items) : base ≤ child ∧ child < base + sizeItems items := by
  induction items generalizing base with
  | nil => simp [itemHandles] at h
  | cons item rest ih =>
    have hpos := item.size_pos
    simp only [itemHandles, List.mem_cons] at h
    simp only [sizeItems]
    rcases h with rfl | h
    · omega
    · have := ih h
      omega

theorem mem_propHandles {base child : Nat} {props : List (String × Json)}
    (h : child ∈ (propHandles base props).map Prod.snd) :
    base ≤ child ∧ child < base + sizeProps props := by
  induction props generalizing base with
  | nil => simp [propHandles] at h
  | cons pair rest ih =>
    obtain ⟨key, value⟩ := pair
    have hpos := value.size_pos
    simp only [propHandles, List.map_cons, List.mem_cons] at h
    simp only [sizeProps]
    rcases h with rfl | h
    · omega
    · have := ih h
      omega

mutual

/-- The children of the node at offset `k` come after it, within the value. -/
theorem layout_child (base : Nat) (container : Option Nat) (step : Option Step)
    (k : Nat) (node : Node) (child : Nat) : (value : Json) →
    (layout base container step value)[k]? = some node → child ∈ node.value.children →
    base + k < child ∧ child < base + value.size
  | .null, h, hc | .bool _, h, hc | .number _, h, hc | .string _, h, hc => by
    cases k with
    | zero =>
      simp only [layout, List.getElem?_cons_zero, Option.some.injEq] at h
      subst h
      simp [NodeValue.children] at hc
    | succ k => simp [layout] at h
  | .array items, h, hc => by
    cases k with
    | zero =>
      simp only [layout, List.getElem?_cons_zero, Option.some.injEq] at h
      subst h
      have := mem_itemHandles hc
      simp only [size]
      omega
    | succ k =>
      simp only [layout, List.getElem?_cons_succ] at h
      have := layoutItems_child (base + 1) base 0 k node child items h hc
      simp only [size]
      omega
  | .object props, h, hc => by
    cases k with
    | zero =>
      simp only [layout, List.getElem?_cons_zero, Option.some.injEq] at h
      subst h
      have := mem_propHandles hc
      simp only [size]
      omega
    | succ k =>
      simp only [layout, List.getElem?_cons_succ] at h
      have := layoutProps_child (base + 1) base k node child props h hc
      simp only [size]
      omega

theorem layoutItems_child (base parent : Nat) (position k : Nat) (node : Node)
    (child : Nat) : (items : List Json) →
    (layoutItems base parent position items)[k]? = some node → child ∈ node.value.children →
    base + k < child ∧ child < base + sizeItems items
  | [], h, _ => by simp [layoutItems] at h
  | item :: rest, h, hc => by
    simp only [layoutItems] at h
    simp only [sizeItems]
    rcases layout_append_cases h with ⟨hk, h⟩ | ⟨hk, h⟩
    · have := layout_child base _ _ k node child item h hc
      omega
    · have := layoutItems_child _ parent _ (k - item.size) node child rest h hc
      omega

theorem layoutProps_child (base parent : Nat) (k : Nat) (node : Node) (child : Nat) :
    (props : List (String × Json)) →
    (layoutProps base parent props)[k]? = some node → child ∈ node.value.children →
    base + k < child ∧ child < base + sizeProps props
  | [], h, _ => by simp [layoutProps] at h
  | (key, value) :: rest, h, hc => by
    simp only [layoutProps] at h
    simp only [sizeProps]
    rcases layout_append_cases h with ⟨hk, h⟩ | ⟨hk, h⟩
    · have := layout_child base _ _ k node child value h hc
      omega
    · have := layoutProps_child _ parent (k - value.size) node child rest h hc
      omega

end

/-! ## Containers come before what they contain -/

mutual

/-- The node at offset `k` is the root of the value, or its container precedes it in the value. -/
theorem layout_container (base : Nat) (container : Option Nat) (step : Option Step)
    (k : Nat) (node : Node) : (value : Json) →
    (layout base container step value)[k]? = some node →
    (k = 0 ∧ node.container = container ∧ node.step = step) ∨
      ∃ p : Nat, node.container = some p ∧ base ≤ p ∧ p < base + k
  | .null, h | .bool _, h | .number _, h | .string _, h => by
    cases k with
    | zero =>
      simp only [layout, List.getElem?_cons_zero, Option.some.injEq] at h
      subst h
      exact .inl ⟨rfl, rfl, rfl⟩
    | succ k => simp [layout] at h
  | .array items, h => by
    cases k with
    | zero =>
      simp only [layout, List.getElem?_cons_zero, Option.some.injEq] at h
      subst h
      exact .inl ⟨rfl, rfl, rfl⟩
    | succ k =>
      simp only [layout, List.getElem?_cons_succ] at h
      obtain ⟨p, hp, hle⟩ := layoutItems_container (base + 1) base 0 k node items h (by omega)
      exact .inr ⟨p, hp, by omega⟩
  | .object props, h => by
    cases k with
    | zero =>
      simp only [layout, List.getElem?_cons_zero, Option.some.injEq] at h
      subst h
      exact .inl ⟨rfl, rfl, rfl⟩
    | succ k =>
      simp only [layout, List.getElem?_cons_succ] at h
      obtain ⟨p, hp, hle⟩ := layoutProps_container (base + 1) base k node props h (by omega)
      exact .inr ⟨p, hp, by omega⟩

theorem layoutItems_container (base parent : Nat) (position k : Nat) (node : Node) :
    (items : List Json) → (layoutItems base parent position items)[k]? = some node →
    parent < base → ∃ p : Nat, node.container = some p ∧ parent ≤ p ∧ p < base + k
  | [], h, _ => by simp [layoutItems] at h
  | item :: rest, h, hp => by
    simp only [layoutItems] at h
    rcases layout_append_cases h with ⟨hk, h⟩ | ⟨hk, h⟩
    · rcases layout_container base _ _ k node item h with ⟨_, hc, _⟩ | ⟨p, hc, hle⟩
      · exact ⟨parent, hc, by omega⟩
      · exact ⟨p, hc, by omega⟩
    · obtain ⟨p, hc, hle⟩ :=
        layoutItems_container _ parent _ (k - item.size) node rest h (by omega)
      exact ⟨p, hc, by omega⟩

theorem layoutProps_container (base parent : Nat) (k : Nat) (node : Node) :
    (props : List (String × Json)) → (layoutProps base parent props)[k]? = some node →
    parent < base → ∃ p : Nat, node.container = some p ∧ parent ≤ p ∧ p < base + k
  | [], h, _ => by simp [layoutProps] at h
  | (key, value) :: rest, h, hp => by
    simp only [layoutProps] at h
    rcases layout_append_cases h with ⟨hk, h⟩ | ⟨hk, h⟩
    · rcases layout_container base _ _ k node value h with ⟨_, hc, _⟩ | ⟨p, hc, hle⟩
      · exact ⟨parent, hc, by omega⟩
      · exact ⟨p, hc, by omega⟩
    · obtain ⟨p, hc, hle⟩ := layoutProps_container _ parent (k - value.size) node rest h (by omega)
      exact ⟨p, hc, by omega⟩

end

end Json

end SchemaRefs
