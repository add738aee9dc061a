import SchemaRefs.Session.Inspect

/-!
# Origins

The origin of a node is what it is derived from: an explicit marker, what its type denotes, what the
column denotes that yields it, or the member of the same name in the origin of its parent. A parent
contains its members, so the search for origins goes up the document and ends.
-/

namespace SchemaRefs.Model

open CacheM

variable (m : Model)

/-- What the column denotes that yields a result member. -/
def columnOrigin (node : NodeId) : CacheM (Option NodeId) := do
  match ← m.elementColumn node with
  | none => return none
  | some column =>
    if (m.doc.refPath? column).isSome then return (← m.inspect (m.doc.pathOf column)).art
    else return none

/-- The member of the same name in the origin of the parent. -/
def inheritedOrigin (originOf : NodeId → CacheM (Option NodeId)) (node : NodeId) :
    CacheM (Option NodeId) := do
  match ← fact? .parent node, (m.doc.step? node).bind Step.key? with
  | some parent, some name =>
    match ← originOf parent with
    | none => return none
    | some origin =>
      match ← m.navigationEnv origin false with
      | none => return none
      | some env => return m.doc.memberIn? env name
  | _, _ => return none

/-- The first origin found: by the marker, by the type, by the column, by the parent. -/
def computeOrigin (originOf : NodeId → CacheM (Option NodeId)) (node : NodeId) :
    CacheM (Option NodeId) := do
  match ← (partTarget m.originTarget (m.doc.originMarker? node)).run m.ask with
  | some found => return some found
  | none =>
    match ← (partTarget m.typeTarget (m.doc.typeRef? node)).run m.ask with
    | some found => return some found
    | none =>
      match ← m.columnOrigin node with
      | some found => return some found
      | none => m.inheritedOrigin originOf node

/-- The origin of a node, of which at most `depth` parents are asked. -/
def originWithin : (depth : Nat) → (node : NodeId) → CacheM (Option NodeId)
  | 0, _ => assert .endlessNesting
  | depth + 1, node => do
    let owner ← m.ownerOf node
    let _ ← m.prepare owner
    getOrCompute .origin owner node do
      count fun stats => { stats with originComputations := stats.originComputations + 1 }
      m.computeOrigin (originWithin depth) node

/-- What a node is derived from; nothing at the root of a chain. Parents have smaller handles, which
bounds their number. -/
def origin (node : NodeId) : CacheM (Option NodeId) :=
  m.originWithin (node + 1) node

end SchemaRefs.Model
