import SchemaRefs.Document.Facts

/-!
# Query topologies

The queries of a definition are numbered from 1 in the order in which they are met. Each has a
scope: the table aliases and mixins it binds, the node that carries its result elements, and the
scope that encloses it. A `SET` has no scope of its own; it shares the one of its leading query.

Beside the scopes a topology comes with links: the parent of each member, and the result member that
each column yields.
-/

namespace SchemaRefs

/-- How a definition is read. -/
structure Options where
  /-- Columns without a result member are skipped rather than refused. -/
  toleratePartial : Bool := false
deriving Repr, DecidableEq, Inhabited

/-- What a table alias stands for. -/
inductive AliasBinding where
  /-- A path in the sources, resolved when it is needed. -/
  | path (item : NodeId)
  /-- A sub-query among the sources, with the index of its scope. -/
  | query (item : NodeId) (index : Nat)
deriving Repr, DecidableEq, Inhabited

/-- One query: a `SELECT`, with every `SET` that shares its scope. -/
structure QueryScope where
  /-- The number of the query, from 1. -/
  number : Nat
  /-- The query node: the object with the `SELECT`, or the body of a projection. -/
  node : NodeId
  /-- The body of the `SELECT`. -/
  select : NodeId
  /-- The `SET` nodes whose leading query this is. -/
  setNodes : List NodeId := []
  aliases : List (String × AliasBinding) := []
  mixins : List (String × NodeId) := []
  /-- The node that carries the result elements. -/
  elementsOwner : Option NodeId
  /-- The index of the enclosing scope. -/
  next : Option Nat
deriving Repr, DecidableEq, Inhabited

/-- The result elements of a query. -/
def QueryScope.elements? (doc : Document) (scope : QueryScope) : Option NodeId :=
  scope.elementsOwner.bind fun owner => doc.prop? owner "elements"

/-- All queries of a definition. -/
structure Topology where
  definition : NodeId
  queries : List QueryScope
  /-- The scope index of every node that stands for a query. -/
  queryTable : List (NodeId × Nat)
deriving Repr, DecidableEq, Inhabited

namespace Topology

/-- The scope with an index. -/
def scope? (topology : Topology) (index : Nat) : Option QueryScope :=
  topology.queries[index]?

/-- The scope with a number. -/
def byNumber? (topology : Topology) : Nat → Option QueryScope
  | 0 => none
  | index + 1 => topology.queries[index]?

/-- The index of the scope that a query node, the body of a `SELECT` or a `SET` belongs to. -/
def queryOf? (topology : Topology) (node : NodeId) : Option Nat :=
  topology.queryTable.lookup node

/-- The main query of the definition. -/
def main? (topology : Topology) : Option QueryScope :=
  topology.queries.head?

end Topology

/-- A fact about a node that is found together with the topology. -/
inductive TopologyLink where
  | parent (member parent : NodeId)
  | column (column element : NodeId)
deriving Repr, DecidableEq, Inhabited

end SchemaRefs
