import SchemaRefs.Document.Layout

/-!
# Allocating the nodes of a value

The nodes of a value are appended to those that exist. A slot is reserved for the value itself; its
children are allocated after the slot, and the slot is filled when their handles are known.

Main statement: what is appended is the layout of the value (`run_alloc`).
-/

namespace SchemaRefs

/-- Reserves a slot for a node, and fills it with a payload that may append more nodes. -/
def reserve (container : Option NodeId) (step : Option Step)
    (payload : NodeId → StateM (Array Node) NodeValue) : StateM (Array Node) NodeId := do
  let id := (← get).size
  modify fun nodes => nodes.push ⟨.null, container, step⟩
  let value ← payload id
  modify fun nodes => nodes.modify id fun node => { node with value }
  return id

theorem run_bind_of_run {σ α β : Type} {x : StateM σ α} {s t : σ} {a : α} (h : x.run s = (a, t))
    (f : α → StateM σ β) :
    (x >>= f).run s = (f a).run t := by
  rw [StateT.run_bind, h]
  rfl

/-- What the payload appends comes after the slot. -/
theorem run_reserve {container : Option NodeId} {step : Option Step}
    {payload : NodeId → StateM (Array Node) NodeValue} {nodes : Array Node} {value : NodeValue}
    {more : List Node}
    (h : (payload nodes.size).run (nodes.push ⟨.null, container, step⟩) =
      (value, nodes.push ⟨.null, container, step⟩ ++ more.toArray)) :
    (reserve container step payload).run nodes =
      (nodes.size, nodes ++ (⟨value, container, step⟩ :: more).toArray) := by
  have hfill : (nodes.push ⟨.null, container, step⟩ ++ more.toArray).modify nodes.size
      (fun node => { node with value }) = nodes ++ (⟨value, container, step⟩ :: more).toArray := by
    have hsize : nodes.toList.length = nodes.size := rfl
    refine Array.ext' ?_
    rw [Array.toList_modify, ← hsize, List.modify_eq_take_drop]
    simp
  change (payload nodes.size >>= fun value => do
    modify fun nodes' => nodes'.modify nodes.size fun node => { node with value }
    return nodes.size).run (nodes.push ⟨.null, container, step⟩) = _
  rw [run_bind_of_run h]
  exact congrArg (Prod.mk nodes.size) hfill

namespace Json

mutual

/-- Appends the nodes of a value; the handle of its root. -/
def alloc (container : Option NodeId) (step : Option Step) : Json → StateM (Array Node) NodeId
  | .null => reserve container step fun _ => return .null
  | .bool b => reserve container step fun _ => return .bool b
  | .number n => reserve container step fun _ => return .number n
  | .string s => reserve container step fun _ => return .string s
  | .array items => reserve container step fun id => return .array (← allocItems id 0 items)
  | .object props => reserve container step fun id => return .object (← allocProps id props)

/-- Appends the items of array `parent`, from position `position` on. -/
def allocItems (parent : NodeId) (position : Nat) : List Json → StateM (Array Node) (List NodeId)
  | [] => return []
  | item :: rest => do
    let id ← alloc (some parent) (some (.index position)) item
    return id :: (← allocItems parent (position + 1) rest)

/-- Appends the properties of object `parent`. -/
def allocProps (parent : NodeId) :
    List (String × Json) → StateM (Array Node) (List (String × NodeId))
  | [] => return []
  | (key, value) :: rest => do
    let id ← alloc (some parent) (some (.key key)) value
    return (key, id) :: (← allocProps parent rest)

end

theorem size_append_layout (nodes : Array Node) (base : Nat) (container : Option NodeId)
    (step : Option Step) (value : Json) :
    (nodes ++ (layout base container step value).toArray).size = nodes.size + value.size := by
  simp [length_layout]

mutual

theorem run_alloc (container : Option NodeId) (step : Option Step) (nodes : Array Node) :
    (value : Json) → (alloc container step value).run nodes =
      (nodes.size, nodes ++ (layout nodes.size container step value).toArray)
  | .null | .bool _ | .number _ | .string _ => by
    rw [alloc, layout]
    exact run_reserve (by rw [Array.append_empty]; rfl)
  | .array items => by
    have hitems := run_allocItems nodes.size 0 (nodes.push ⟨.null, container, step⟩) items
    rw [Array.size_push] at hitems
    rw [alloc, layout]
    exact run_reserve (run_bind_of_run hitems _)
  | .object props => by
    have hprops := run_allocProps nodes.size (nodes.push ⟨.null, container, step⟩) props
    rw [Array.size_push] at hprops
    rw [alloc, layout]
    exact run_reserve (run_bind_of_run hprops _)

theorem run_allocItems (parent : NodeId) (position : Nat) (nodes : Array Node) :
    (items : List Json) → (allocItems parent position items).run nodes =
      (itemHandles nodes.size items, nodes ++
        (layoutItems nodes.size parent position items).toArray)
  | [] => by
    rw [allocItems, itemHandles, layoutItems, Array.append_empty]
    rfl
  | item :: rest => by
    have hitem := run_alloc (some parent) (some (.index position)) nodes item
    have hrest := run_allocItems parent (position + 1) (nodes ++ (layout nodes.size (some parent)
      (some (.index position)) item).toArray) rest
    rw [size_append_layout] at hrest
    rw [allocItems, itemHandles, layoutItems, run_bind_of_run hitem, run_bind_of_run hrest,
      ← List.append_toArray, ← Array.append_assoc]
    rfl

theorem run_allocProps (parent : NodeId) (nodes : Array Node) :
    (props : List (String × Json)) → (allocProps parent props).run nodes =
      (propHandles nodes.size props, nodes ++ (layoutProps nodes.size parent props).toArray)
  | [] => by
    rw [allocProps, propHandles, layoutProps, Array.append_empty]
    rfl
  | (key, value) :: rest => by
    have hvalue := run_alloc (some parent) (some (.key key)) nodes value
    have hrest := run_allocProps parent (nodes ++ (layout nodes.size (some parent) (some (.key key))
      value).toArray) rest
    rw [size_append_layout] at hrest
    rw [allocProps, propHandles, layoutProps, run_bind_of_run hvalue, run_bind_of_run hrest,
      ← List.append_toArray, ← Array.append_assoc]
    rfl

end

/-- The nodes of a document are the layout of its value. -/
theorem toList_alloc (value : Json) :
    ((alloc none none value).run #[]).2.toList = layout 0 none none value := by
  rw [run_alloc, Array.empty_append]
  rfl

end Json

end SchemaRefs
