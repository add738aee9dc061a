import SchemaRefs.Topology.Columns
import SchemaRefs.Topology.Members
import SchemaRefs.Topology.Sources

/-!
# Building a topology

The queries of a definition are visited from its main query on: the sources of a query before its
columns, then the queries inside its expressions, in document order. A sub-query gets its number
when it is met, so every scope comes after the one that encloses it. Queries may be nested
`maxQueryNesting` deep; the visit counts down from there.
-/

namespace SchemaRefs

/-- The number of queries that may be nested in one another. -/
def maxQueryNesting : Nat := 256

/-- A topology under construction. -/
structure Draft where
  queries : List QueryScope := []
  queryTable : List (NodeId × Nat) := []
  links : List TopologyLink := []
deriving Repr, DecidableEq, Inhabited

namespace Draft

/-- Adds a scope at the end. -/
def addScope (draft : Draft) (scope : QueryScope) : Draft :=
  { draft with queries := draft.queries ++ [scope] }

/-- Records that `node` belongs to the scope with an index. -/
def assign (draft : Draft) (node : NodeId) (index : Nat) : Draft :=
  { draft with queryTable := (node, index) :: draft.queryTable }

/-- Changes the scope with an index. -/
def modifyScope (draft : Draft) (index : Nat) (f : QueryScope → QueryScope) : Draft :=
  { draft with queries := draft.queries.modify index f }

/-- Adds links at the end. -/
def addLinks (draft : Draft) (links : List TopologyLink) : Draft :=
  { draft with links := draft.links ++ links }

/-- The elements owner of the scope with an index. -/
def elementsOwner? (draft : Draft) (index : Nat) : Option NodeId :=
  draft.queries[index]?.bind QueryScope.elementsOwner

end Draft

/-- Steps in the construction of a topology. -/
abbrev BuildM := StateT Draft (Except ModelError)

/-- Visits a query that is enclosed by the given scope; the flag marks the main query. The result is
the index of its scope. -/
abbrev QueryVisit := NodeId → Option Nat → Bool → BuildM Nat

namespace Document

variable (doc : Document) (options : Options) (definition : NodeId)

/-- The properties of a `SELECT` that are searched for queries. -/
def isExpressionKey (key : String) : Bool :=
  ["columns", "where", "having", "groupBy", "orderBy"].contains key

/-- Gives the scope an elements owner, unless it has one. -/
def inheritOwner (owner : Option NodeId) (scope : QueryScope) : QueryScope :=
  { scope with elementsOwner := scope.elementsOwner <|> owner }

/-- Visits the queries inside an expression. -/
def visitNested (visit : QueryVisit) (index : Nat) (expr : NodeId) : BuildM Unit :=
  (doc.queriesBelow expr).forM fun query => do
    let _ ← visit query (some index) false

/-- Visits a leaf of the sources of the query with an index, and binds its alias. -/
def visitSource (visit : QueryVisit) (index : Nat) : SourceItem → BuildM Unit
  | .path item name =>
    modify fun draft => draft.modifyScope index fun scope =>
      { scope with aliases := Table.put scope.aliases name (.path item) }
  | .query item => do
    let sub ← visit item (some index) false
    let name := (doc.stringProp? item "as").getD ("$_select_" ++ toString (sub + 1))
    modify fun draft => draft.modifyScope index fun scope =>
      { scope with aliases := Table.put scope.aliases name (.query item sub) }
  | .condition expr => doc.visitNested visit index expr
  | .fault item .emptyReference => throw (doc.malformedAt item "empty reference in FROM")
  | .fault item .emptyJoin => throw (doc.malformedAt item "join without arguments")
  | .fault item .unsupported =>
    throw (doc.malformedAt item ("unsupported FROM item in query " ++ toString (index + 1)))

/-- The draft with a scope for a `SELECT` at the end. The elements owner of the main query is the
definition. -/
def openScope (node select : NodeId) (next : Option Nat) (isMain : Bool) (draft : Draft) : Draft :=
  let index := draft.queries.length
  let carrier := if isMain then definition else select
  let elementsOwner := if doc.hasProp carrier "elements" then some carrier else none
  ((draft.addScope { number := index + 1, node, select, elementsOwner, next }).assign node
    index).assign select index

/-- Visits the sources of a `SELECT`. -/
def visitSources (visit : QueryVisit) (index : Nat) (select : NodeId) : BuildM Unit :=
  match doc.prop? select "from" with
  | some source => (doc.sourceItems source).forM (doc.visitSource visit index)
  | none => pure ()

/-- Binds a mixin of a `SELECT`. -/
def bindMixin (index : Nat) (select : NodeId) (mixin : String × NodeId) : BuildM Unit :=
  modify fun draft => (draft.addLinks [.parent mixin.2 select]).modifyScope index fun scope =>
    { scope with mixins := Table.put scope.mixins mixin.1 mixin.2 }

/-- Binds the mixins of a `SELECT`. -/
def bindMixins (index : Nat) (select : NodeId) : BuildM Unit :=
  match doc.prop? select "mixin" with
  | some mixins => (doc.entries mixins).forM (bindMixin index select)
  | none => pure ()

/-- Links the columns of the query with an index. -/
def linkScope (index : Nat) : BuildM Unit := do
  match (← get).queries[index]? with
  | some scope =>
    let links ← doc.scopeLinks options scope
    modify (·.addLinks links)
  | none => pure ()

/-- The properties of a `SELECT` that are searched for queries, in order. -/
def expressionEntries (select : NodeId) : List (String × NodeId) :=
  (doc.entries select).filter fun (key, _) => isExpressionKey key

/-- Visits a `SELECT`. -/
def visitSelect (visit : QueryVisit) (node select : NodeId) (next : Option Nat) (isMain : Bool) :
    BuildM Nat := do
  let index := (← get).queries.length
  modify (doc.openScope definition node select next isMain)
  doc.visitSources visit index select
  doc.bindMixins index select
  doc.linkScope options index
  (doc.expressionEntries select).forM fun (_, expr) => doc.visitNested visit index expr
  return index

/-- Visits an arm of a `SET` after the first. Without result elements of its own it has those of the
leading query. -/
def visitArm (visit : QueryVisit) (next : Option Nat) (leading : Nat) (arm : NodeId) :
    BuildM Unit := do
  let index ← visit arm next false
  modify fun draft => draft.modifyScope index (inheritOwner (draft.elementsOwner? leading))

/-- Visits a `SET`: its leading query first, whose scope it shares, then the other arms. -/
def visitSet (visit : QueryVisit) (node set : NodeId) (next : Option Nat) (isMain : Bool) :
    BuildM Nat :=
  match doc.propItems set "args" with
  | [] => throw (doc.malformedAt node "SET without query arguments")
  | first :: rest => do
    let leading ← visit first next isMain
    let owner := if doc.hasProp set "elements" then some set else none
    modify fun draft =>
      ((draft.assign node leading).assign set leading).modifyScope leading fun scope =>
        inheritOwner owner { scope with setNodes := scope.setNodes ++ [node] }
    rest.forM (visitArm visit next leading)
    return leading

/-- Visits a query in which `depth` more levels may be nested. -/
def visitQuery : (depth : Nat) → QueryVisit
  | 0 => fun node _ _ => throw (doc.malformedAt node "queries are nested too deeply")
  | depth + 1 => fun node next isMain =>
    match doc.prop? node "SET" with
    | some set => doc.visitSet (visitQuery depth) node set next isMain
    | none =>
      match doc.prop? node "SELECT" with
      | some select => doc.visitSelect options definition (visitQuery depth) node select next isMain
      | none => throw (doc.malformedAt node "expected a SELECT or SET query")

/-- Visits the main query of a definition, if it has one. -/
def visitMain : BuildM Unit :=
  match doc.query? definition with
  | none => pure ()
  | some query => do
    let visit := doc.visitQuery options definition maxQueryNesting
    let _ ← if doc.isProjection definition then
        doc.visitSelect options definition visit query query none true
      else visit query none true

/-- The topology of a definition with the links found on the way. -/
def buildTopology : Except ModelError (Topology × List TopologyLink) := do
  let start : Draft := { links := doc.memberLinks definition definition }
  let ((), draft) ← (doc.visitMain options definition).run start
  return ({ definition, queries := draft.queries, queryTable := draft.queryTable }, draft.links)

end Document

end SchemaRefs
