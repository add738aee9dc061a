import SchemaRefs.Session.Basic

/-!
# Snapshots

A snapshot shows the queries of a definition and all facts that the session keeps on its behalf, in
the order in which the entries were made. Nodes are shown by their paths. Nodes with the same path
text share an entry, which has the first position and the last facts.
-/

namespace SchemaRefs

/-- What a table alias stands for, with the node or the number of the query. -/
inductive SnapshotAlias where
  | path (node : String)
  | query (number : Nat)
deriving Repr, DecidableEq, Inhabited

/-- A query of a snapshot. -/
structure SnapshotQuery where
  number : Nat
  node : String
  /-- The number of the enclosing query. -/
  next : Option Nat
  /-- The node that carries the result elements. -/
  elements : Option String
  aliases : List (String × SnapshotAlias)
  mixins : List (String × String)
deriving Repr, DecidableEq, Inhabited

/-- The queries and facts of a definition. -/
structure Snapshot where
  definition : Option String
  queries : List SnapshotQuery
  /-- The facts of each node, by name. -/
  entries : List (String × List (String × Json))
deriving Repr, Inhabited

namespace Snapshot

variable (doc : Document)

/-- A table alias of a snapshot. -/
def ofAlias : AliasBinding → SnapshotAlias
  | .path item => .path (doc.pathText item)
  | .query _ index => .query (index + 1)

/-- A query of a snapshot. -/
def ofScope (scope : QueryScope) : SnapshotQuery where
  number := scope.number
  node := doc.pathText scope.node
  next := scope.next.map (· + 1)
  elements := scope.elementsOwner.map doc.pathText
  aliases := scope.aliases.map fun (name, binding) => (name, ofAlias doc binding)
  mixins := scope.mixins.map fun (name, mixin) => (name, doc.pathText mixin)

/-- How a fact is shown, if it is shown at all. -/
def factJson? : (key : FactKey) → key.Value → Option Json
  | .parent, id | .element, id | .column, id => some (Resolution.nodeJson doc id)
  | .origin, id => some (Resolution.nodeJson? doc id)
  | .query, index => some (.nat (index + 1))
  | .effectiveType, .done id => some (Resolution.nodeJson doc id)
  | .effectiveType, .inProgress => none
  | .resolution, resolution => some (resolution.toJson doc)
  | .topology, _ => none

/-- The facts in the order in which they are shown. -/
def shownKeys : List FactKey :=
  [.parent, .origin, .effectiveType, .query, .element, .column, .resolution]

/-- The facts that are shown for a node. -/
def factsOf (cache : Cache) (node : NodeId) : List (String × Json) :=
  shownKeys.filterMap fun key =>
    ((cache.get? key node).bind (factJson? doc key)).map fun value => (key.name, value)

/-- The entries of a definition. Nodes without facts to show are left out. -/
def entriesOf (cache : Cache) (definition : NodeId) : List (String × List (String × Json)) :=
  (cache.ownedNodes definition).foldl (fun entries node =>
    let facts := factsOf doc cache node
    if facts.isEmpty then entries else Table.put entries (doc.pathText node) facts) []

/-! ## As a JSON value -/

/-- A table alias. -/
def aliasJson : SnapshotAlias → Json
  | .path node => .object [("ref", .string node)]
  | .query number => .object [("query", .nat number)]

/-- A query, with its tables as objects. -/
def queryJson (query : SnapshotQuery) : Json :=
  .object [
    ("number", .nat query.number),
    ("node", .string query.node),
    ("next", Json.optional Json.nat query.next),
    ("elements", Json.optional Json.string query.elements),
    ("aliases", .object (query.aliases.map fun (name, binding) => (name, aliasJson binding))),
    ("mixins", .object (query.mixins.map fun (name, node) => (name, .string node)))]

/-- A snapshot, with its entries as an object. -/
def toJson (snapshot : Snapshot) : Json :=
  .object [
    ("definition", Json.optional Json.string snapshot.definition),
    ("queries", .array (snapshot.queries.map queryJson)),
    ("entries", .object (snapshot.entries.map fun (path, facts) => (path, .object facts)))]

end Snapshot

/-- The snapshot of a definition, which is prepared first. -/
def Model.snapshot (m : Model) (definition : NodeId) : CacheM Snapshot := do
  let topology ← m.prepare definition
  return { definition := m.doc.definitionName? definition
           queries := topology.queries.map (Snapshot.ofScope m.doc)
           entries := Snapshot.entriesOf m.doc (← get) definition }

end SchemaRefs
