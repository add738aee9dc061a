import SchemaRefs.Resolution
import SchemaRefs.Topology.Basic

/-!
# Memoized facts

The facts that a session keeps about a node. Facts are additive: once stored, a fact is not replaced
by another value. The one exception is the mark of a chain of types that is being walked, which may
become the result of the walk.
-/

namespace SchemaRefs

/-- How far the effective type of a node is known. -/
inductive TypeState where
  /-- The node is on a chain that is being walked. -/
  | inProgress
  | done (type : NodeId)
deriving Repr, DecidableEq, Inhabited

/-- The facts that can be known about a node. -/
inductive FactKey where
  /-- The definition or member that declares a member. -/
  | parent
  /-- What a node is derived from; nothing at the root of a chain. -/
  | origin
  /-- The index of the scope that a query node belongs to. -/
  | query
  /-- The result member that a column yields. -/
  | element
  /-- The column that yields a result member. -/
  | column
  | effectiveType
  /-- The resolution of the reference that a node holds. -/
  | resolution
  /-- The topology of a definition. -/
  | topology
deriving Repr, DecidableEq, Inhabited

namespace FactKey

/-- The values of a fact. -/
abbrev Value : FactKey → Type
  | .parent => NodeId
  | .origin => Option NodeId
  | .query => Nat
  | .element => NodeId
  | .column => NodeId
  | .effectiveType => TypeState
  | .resolution => Resolution
  | .topology => Topology

instance : (key : FactKey) → DecidableEq key.Value
  | .parent => inferInstanceAs (DecidableEq Nat)
  | .origin => inferInstanceAs (DecidableEq (Option Nat))
  | .query => inferInstanceAs (DecidableEq Nat)
  | .element => inferInstanceAs (DecidableEq Nat)
  | .column => inferInstanceAs (DecidableEq Nat)
  | .effectiveType => inferInstanceAs (DecidableEq TypeState)
  | .resolution => inferInstanceAs (DecidableEq Resolution)
  | .topology => inferInstanceAs (DecidableEq Topology)

/-- The name of a fact in messages and snapshots. -/
def name : FactKey → String
  | .parent => "_parent"
  | .origin => "_origin"
  | .query => "$queryNumber"
  | .element => "_element"
  | .column => "_column"
  | .effectiveType => "_effectiveType"
  | .resolution => "_links"
  | .topology => "$queries"

/-- The text of a node in messages. -/
def nodeText (id : NodeId) : String :=
  "NodeId(" ++ toString id ++ ")"

/-- The text of a value in messages. -/
def valueText : (key : FactKey) → key.Value → String
  | .parent, id | .element, id | .column, id => nodeText id
  | .origin, none => "None"
  | .origin, some id => "Some(" ++ nodeText id ++ ")"
  | .query, i => toString i
  | .effectiveType, .inProgress => "InProgress"
  | .effectiveType, .done id => "Done(" ++ nodeText id ++ ")"
  | .resolution, r => "resolution with " ++ toString r.links.length ++ " links"
  | .topology, t => "topology with " ++ toString t.queries.length ++ " queries"

/-- A stored value may be replaced by a new one. -/
def mayReplace : (key : FactKey) → key.Value → key.Value → Bool
  | .effectiveType, old, new => old == .inProgress || old == new
  | _, old, new => old == new

end FactKey

/-- The facts about one node, kept on behalf of a definition. -/
structure Entry where
  owner : NodeId
  parent : Option NodeId := none
  origin : Option (Option NodeId) := none
  query : Option Nat := none
  element : Option NodeId := none
  column : Option NodeId := none
  effectiveType : Option TypeState := none
  resolution : Option Resolution := none
  topology : Option Topology := none
deriving Repr, DecidableEq, Inhabited

namespace Entry

/-- The value of a fact. -/
def get? (entry : Entry) : (key : FactKey) → Option key.Value
  | .parent => entry.parent
  | .origin => entry.origin
  | .query => entry.query
  | .element => entry.element
  | .column => entry.column
  | .effectiveType => entry.effectiveType
  | .resolution => entry.resolution
  | .topology => entry.topology

/-- The entry with a fact set or removed. -/
def set (entry : Entry) : (key : FactKey) → Option key.Value → Entry
  | .parent, value => { entry with parent := value }
  | .origin, value => { entry with origin := value }
  | .query, value => { entry with query := value }
  | .element, value => { entry with element := value }
  | .column, value => { entry with column := value }
  | .effectiveType, value => { entry with effectiveType := value }
  | .resolution, value => { entry with resolution := value }
  | .topology, value => { entry with topology := value }

@[simp] theorem owner_set (entry : Entry) (key : FactKey) (value : Option key.Value) :
    (entry.set key value).owner = entry.owner := by
  cases key <;> rfl

@[simp] theorem get?_set_self (entry : Entry) (key : FactKey) (value : Option key.Value) :
    (entry.set key value).get? key = value := by
  cases key <;> rfl

theorem get?_set_of_ne (entry : Entry) {key other : FactKey} (h : other ≠ key)
    (value : Option key.Value) : (entry.set key value).get? other = entry.get? other := by
  cases key <;> cases other <;> first | rfl | exact absurd rfl h

end Entry

end SchemaRefs
