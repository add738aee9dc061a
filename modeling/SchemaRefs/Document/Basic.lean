import SchemaRefs.Document.Allocation
import SchemaRefs.Json.Parser
import SchemaRefs.Location

/-!
# Schema documents

A document is the layout of a JSON object whose `definitions` property is an object. Nodes are named
by handles in pre-order; a handle beyond the last node denotes no node, and every question about it
has the answer for absence.

Main statements: children come after their container (`lt_of_mem_children`), and containers before
what they contain (`container?_lt`). All walks through a document end for one of these two reasons.
-/

namespace SchemaRefs

/-- The payload of a node of a layout. -/
def valueIn (nodes : Array Node) (id : NodeId) : Option NodeValue :=
  nodes[id]?.map Node.value

/-- Property `key` of an object of a layout. -/
def propIn (nodes : Array Node) (id : NodeId) (key : String) : Option NodeId :=
  match valueIn nodes id with
  | some (.object props) => Table.get? props key
  | _ => none

/-- The `definitions` object below the root of a layout. -/
def definitionsIn (nodes : Array Node) : Option NodeId :=
  (propIn nodes 0 "definitions").filter fun id =>
    match valueIn nodes id with
    | some (.object _) => true
    | _ => false

/-- A document: the nodes of a value with distinct keys, and its `definitions` object. -/
structure Document where
  nodes : Array Node
  definitions : NodeId
  nodes_layout : ∃ tree : Json, tree.DistinctKeys ∧ nodes.toList = tree.layout 0 none none
  definitions_eq : definitionsIn nodes = some definitions

/-- Why a value is not a document. -/
inductive LoadError where
  /-- The text is not JSON. -/
  | syntaxError
  | notAnObject (found : String)
  | missingDefinitions
deriving Repr, DecidableEq, Inhabited

/-- The text of a load error. -/
def LoadError.message : LoadError → String
  | .syntaxError => "invalid JSON"
  | .notAnObject found => "schema document must be a JSON object, found " ++ found
  | .missingDefinitions => "schema document has no `definitions` object"

namespace Document

/-! ## Loading -/

/-- Allocates the nodes of a value as a document. Repeated keys are settled first. -/
def ofJson (value : Json) : Except LoadError Document :=
  match value with
  | .object _ =>
    let nodes := ((value.canonical.alloc none none).run #[]).2
    match h : definitionsIn nodes with
    | some definitions =>
      .ok { nodes, definitions, definitions_eq := h,
            nodes_layout := ⟨value.canonical, value.distinctKeys_canonical, Json.toList_alloc _⟩ }
    | none => .error .missingDefinitions
  | other => .error (.notAnObject other.typeName)

/-- Reads a text as a document. -/
def ofText (text : String) : Except LoadError Document :=
  match Json.parse text with
  | some value => ofJson value
  | none => .error .syntaxError

variable (doc : Document)

/-! ## Nodes -/

/-- The handle of the root. -/
def root : NodeId := 0

/-- The number of nodes. -/
def size : Nat :=
  doc.nodes.size

/-- The node with a handle. -/
def node? (id : NodeId) : Option Node :=
  doc.nodes[id]?

/-- The payload of a node. -/
def value? (id : NodeId) : Option NodeValue :=
  valueIn doc.nodes id

/-- The container of a node. -/
def container? (id : NodeId) : Option NodeId :=
  (doc.node? id).bind Node.container

/-- The step that leads to a node from its container. -/
def step? (id : NodeId) : Option Step :=
  (doc.node? id).bind Node.step

/-- The properties of an object, in order; nothing for other nodes. -/
def entries (id : NodeId) : List (String × NodeId) :=
  match doc.value? id with
  | some (.object props) => props
  | _ => []

/-- The items of an array, in order; nothing for other nodes. -/
def itemsAt (id : NodeId) : List NodeId :=
  match doc.value? id with
  | some (.array items) => items
  | _ => []

/-- The node is an object. -/
def isObject (id : NodeId) : Bool :=
  match doc.value? id with
  | some (.object _) => true
  | _ => false

/-- The node is an array. -/
def isArray (id : NodeId) : Bool :=
  match doc.value? id with
  | some (.array _) => true
  | _ => false

/-- The text of a string node. -/
def string? (id : NodeId) : Option String :=
  match doc.value? id with
  | some (.string s) => some s
  | _ => none

/-- The node is a string. -/
def isString (id : NodeId) : Bool :=
  (doc.string? id).isSome

/-- The node is the value `true`. -/
def isTrue (id : NodeId) : Bool :=
  match doc.value? id with
  | some (.bool b) => b
  | _ => false

/-- Property `key` of an object. -/
def prop? (id : NodeId) (key : String) : Option NodeId :=
  propIn doc.nodes id key

/-- The node is an object with property `key`. -/
def hasProp (id : NodeId) (key : String) : Bool :=
  (doc.prop? id key).isSome

/-- The text of a property that is a string. -/
def stringProp? (id : NodeId) (key : String) : Option String :=
  (doc.prop? id key).bind doc.string?

/-- A property that is an object. -/
def objectProp? (id : NodeId) (key : String) : Option NodeId :=
  (doc.prop? id key).filter doc.isObject

/-- The property is the value `true`. -/
def flag (id : NodeId) (key : String) : Bool :=
  (doc.prop? id key).any doc.isTrue

/-! ## Order -/

variable {doc}

/-- A child comes after its container, and is a node of the document. -/
theorem lt_of_mem_children {id child : Nat} {value : NodeValue} (h : doc.value? id = some value)
    (hc : child ∈ value.children) : id < child ∧ child < doc.size := by
  obtain ⟨tree, _, hl⟩ := doc.nodes_layout
  obtain ⟨node, hn, rfl⟩ := Option.map_eq_some_iff.1 h
  rw [← Array.getElem?_toList, hl] at hn
  have := tree.layout_child 0 none none id node child hn hc
  have hs : doc.size = tree.size := by
    rw [size, ← Array.length_toList, hl, Json.length_layout]
  omega

/-- A container comes before what it contains. -/
theorem container?_lt {id parent : Nat} (h : doc.container? id = some parent) : parent < id := by
  obtain ⟨tree, _, hl⟩ := doc.nodes_layout
  obtain ⟨node, hn, hp⟩ := Option.bind_eq_some_iff.1 h
  rw [node?, ← Array.getElem?_toList, hl] at hn
  rcases tree.layout_container 0 none none id node hn with ⟨_, hc, _⟩ | ⟨p, hc, _, hlt⟩
  · rw [hc] at hp; cases hp
  · rw [hc] at hp; cases hp; omega

theorem lt_of_mem_entries {id child : Nat} {key : String} (h : (key, child) ∈ doc.entries id) :
    id < child ∧ child < doc.size := by
  unfold entries at h
  split at h
  · next props hv =>
    exact lt_of_mem_children hv (List.mem_map.2 ⟨_, h, rfl⟩)
  · cases h

theorem lt_of_mem_itemsAt {id child : Nat} (h : child ∈ doc.itemsAt id) :
    id < child ∧ child < doc.size := by
  unfold itemsAt at h
  split at h
  · next items hv => exact lt_of_mem_children hv h
  · cases h

theorem mem_entries_of_prop? {id child : NodeId} {key : String}
    (h : doc.prop? id key = some child) : (key, child) ∈ doc.entries id := by
  simp only [prop?, propIn] at h
  simp only [entries, value?]
  split at h
  · next props hv => exact Table.mem_of_get? h
  · cases h

theorem prop?_lt {id child : Nat} {key : String} (h : doc.prop? id key = some child) :
    id < child ∧ child < doc.size :=
  lt_of_mem_entries (mem_entries_of_prop? h)

variable (doc)

/-! ## Definitions -/

/-- The top-level definitions, in order. -/
def definitionEntries : List (String × NodeId) :=
  doc.entries doc.definitions

/-- The top-level definition with a name. -/
def definition? (name : String) : Option NodeId :=
  doc.prop? doc.definitions name

/-- The node is a top-level definition. -/
def isDefinition (id : NodeId) : Bool :=
  doc.container? id == some doc.definitions

/-- The name of a top-level definition. -/
def definitionName? (id : NodeId) : Option String :=
  if doc.isDefinition id then (doc.step? id).bind Step.key? else none

/-- The top-level definition that a node belongs to. -/
def owner? (id : NodeId) : Option NodeId :=
  if doc.isDefinition id then some id
  else match _h : doc.container? id with
    | some parent => owner? parent
    | none => none
termination_by id
decreasing_by exact container?_lt _h

/-! ## Paths -/

/-- The steps that lead from the root to a node. -/
def stepsTo (id : NodeId) : List Step :=
  match doc.step? id with
  | none => []
  | some step =>
    match _h : doc.container? id with
    | some parent => stepsTo parent ++ [step]
    | none => [step]
termination_by id
decreasing_by exact container?_lt _h

/-- The path of a node. A handle without node has the empty path. -/
def pathOf (id : NodeId) : Path :=
  ⟨doc.stepsTo id⟩

/-- The text of the path of a node. -/
def pathText (id : NodeId) : String :=
  (doc.pathOf id).text

/-- The node reached from `id` by one step. A position in an object is a property of digits. -/
def follow? (id : NodeId) (step : Step) : Option NodeId :=
  match doc.value? id, step with
  | some (.object props), step => Table.get? props step.text
  | some (.array items), .index position => items[position]?
  | _, _ => none

/-- The node reached from `id` by several steps. -/
def followAll? (id : NodeId) : List Step → Option NodeId
  | [] => some id
  | step :: rest => (doc.follow? id step).bind fun next => followAll? next rest

/-- The node reached from the root by a path. -/
def nodeAt? (path : Path) : Option NodeId :=
  doc.followAll? root path.steps

/-! ## Locations -/

/-- The natural number held by a property, if a field of a location can hold it. -/
def numberProp? (id : NodeId) (key : String) : Option UInt32 :=
  match (doc.prop? id key).bind doc.value? with
  | some (.number n) => n.toNat?.bind Location.field?
  | _ => none

/-- The location that a node carries itself: a `$location` that names a file. -/
def location? (id : NodeId) : Option Location := do
  let place ← doc.prop? id "$location"
  let file ← doc.stringProp? place "file"
  some { file, line := doc.numberProp? place "line", col := doc.numberProp? place "col",
         endLine := doc.numberProp? place "endLine", endCol := doc.numberProp? place "endCol" }

/-- The location of a node or of the nearest container that carries one. -/
def nearestLocation? (id : NodeId) : Option Location :=
  match doc.location? id with
  | some location => some location
  | none =>
    match _h : doc.container? id with
    | some parent => nearestLocation? parent
    | none => none
termination_by id
decreasing_by exact container?_lt _h

/-! ## Back to values -/

/-- The value below a node; `null` for a handle without node. -/
def toJson (id : NodeId) : Json :=
  match _h : doc.value? id with
  | none | some .null => .null
  | some (.bool b) => .bool b
  | some (.number n) => .number n
  | some (.string s) => .string s
  | some (.array items) =>
    .array (items.attach.map fun ⟨item, _⟩ => toJson item)
  | some (.object props) =>
    .object (props.attach.map fun ⟨(key, child), _⟩ => (key, toJson child))
termination_by doc.size - id
decreasing_by
  · next hi =>
    have := lt_of_mem_children _h hi
    omega
  · next hp =>
    have := lt_of_mem_children _h (List.mem_map.2 ⟨_, hp, rfl⟩)
    omega

end Document

end SchemaRefs
