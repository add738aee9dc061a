import SchemaRefs.Cache.Basic
import SchemaRefs.Topology.Build

/-!
# Sessions

A session answers questions about one document under fixed options. Its state is a cache: the first
question that touches a definition builds the topology of its queries, and stores the parents of its
members and the links between columns and result members. A definition can be dropped again without
touching the rest.
-/

namespace SchemaRefs

/-- What a session is about. -/
structure Model where
  doc : Document
  options : Options := {}

namespace Model

open CacheM

variable (m : Model)

/-- The top-level definition that owns a node. -/
def ownerOf (node : NodeId) : CacheM NodeId :=
  match m.doc.owner? node with
  | some owner => return owner
  | none => assert (.outsideDefinitions node)

/-! ## Preparing a definition -/

/-- The nodes that stand for the query of a scope. -/
def scopeNodes (scope : QueryScope) : List NodeId :=
  [scope.node, scope.select] ++
    scope.setNodes.flatMap fun set => set :: (m.doc.prop? set "SET").toList

/-- Stores a fact, unless the node has one of this kind already. -/
def setFirst (key : FactKey) (owner node : NodeId) (value : key.Value) : CacheM Unit := do
  if (← get).contains key node then pure () else setFact key owner node value

/-- Stores a link of a topology. The first column that yields a member names it. -/
def storeLink (definition : NodeId) : TopologyLink → CacheM Unit
  | .parent member parent => setFact .parent definition member parent
  | .column column element => do
    setFact .element definition column element
    setFirst .column definition element column

/-- Stores a topology and its links. -/
def storeTopology (definition : NodeId) (topology : Topology) (links : List TopologyLink) :
    CacheM Unit := do
  topology.queries.zipIdx.forM fun (scope, index) =>
    (m.scopeNodes scope).forM fun node => setFirst .query definition node index
  links.forM (storeLink definition)
  setFact .topology definition definition topology

/-- A malformed query, reported with the name and location of its definition as far as needed. -/
def buildError (definition : NodeId) (error : ModelError) : ModelError :=
  let name := (m.doc.definitionName? definition).getD "?"
  { error with name := error.name <|> some name }.withLocation (m.doc.location? definition)

/-- The topology of a definition, built when it is first needed. -/
def prepare (definition : NodeId) : CacheM Topology := do
  if m.doc.isDefinition definition then
    match ← fact? .topology definition with
    | some topology => return topology
    | none =>
      match m.doc.buildTopology m.options definition with
      | .error error => fail (m.buildError definition error)
      | .ok (topology, links) =>
        count fun stats => { stats with topologyBuilds := stats.topologyBuilds + 1 }
        m.storeTopology definition topology links
        return topology
  else assert (.notDefinition definition)

/-- Forgets everything kept on behalf of a definition; the result is the number of entries. -/
def drop (definition : NodeId) : CacheM Nat := do
  let (cache, removed) := (← get).dropAll definition
  set cache
  return removed

/-! ## Queries -/

/-- The scopes of a definition. -/
def queryScopes (definition : NodeId) : CacheM (List QueryScope) := do
  return (← m.prepare definition).queries

/-- The node that carries the result elements of a query: an explicit carrier, or else the
definition for its main query and the body of the `SELECT` for any other. -/
def queryOrMain (query main : NodeId) : CacheM NodeId := do
  let topology ← m.prepare main
  match topology.queryOf? query with
  | none => assert (.notQuery query main)
  | some index =>
    match topology.scope? index with
    | none => assert (.noScope index)
    | some scope => return scope.elementsOwner.getD (if index = 0 then main else scope.select)

/-- The query whose result elements a node carries. -/
def queryForElements (carrier : NodeId) : CacheM (Option NodeId) := do
  let topology ← m.prepare (← m.ownerOf carrier)
  return (topology.queries.find? (·.elementsOwner == some carrier)).map QueryScope.node

/-- A fact that is stored together with the topology of the definition that owns a node. -/
def preparedFact (key : FactKey) (node : NodeId) : CacheM (Option key.Value) := do
  let _ ← m.prepare (← m.ownerOf node)
  fact? key node

/-- The number of the query that a node stands for. -/
def queryNumber (query : NodeId) : CacheM (Option Nat) := do
  return (← m.preparedFact .query query).map (· + 1)

/-- The result member that a column yields. -/
def columnElement (column : NodeId) : CacheM (Option NodeId) :=
  m.preparedFact .element column

/-- The column that yields a result member. -/
def elementColumn (element : NodeId) : CacheM (Option NodeId) :=
  m.preparedFact .column element

/-- The parent of a member. -/
def parentOf (member : NodeId) : CacheM (Option NodeId) :=
  m.preparedFact .parent member

end Model

end SchemaRefs
