import SchemaRefs.Document.Basic

/-!
# Structural facts

Definitions and members share one set of facts: elements, a target, items, symbols, a type. Each
accessor gives the node that holds the fact, if the definition or member declares it itself. The
second part reads the shapes of references: the list of segments, their names, and the names that
a source or a column of a query gets from its last segment.
-/

namespace SchemaRefs

/-! ## Names -/

/-- The kinds of definitions. -/
inductive Kind where
  | entity
  | aspect
  | type
  | action
  | function
  | event
  | context
  | service
  | annotated
  | element
  | other
deriving Repr, DecidableEq, Inhabited

/-- The word for a kind; an unknown kind is just an artifact. -/
def Kind.text : Kind → String
  | .entity => "entity"
  | .aspect => "aspect"
  | .type => "type"
  | .action => "action"
  | .function => "function"
  | .event => "event"
  | .context => "context"
  | .service => "service"
  | .annotated => "annotation"
  | .element => "element"
  | .other => "artifact"

/-- The kind that a word stands for. -/
def Kind.ofText : String → Kind
  | "entity" => .entity
  | "aspect" => .aspect
  | "type" => .type
  | "action" => .action
  | "function" => .function
  | "event" => .event
  | "context" => .context
  | "service" => .service
  | "annotation" => .annotated
  | "element" => .element
  | _ => .other

/-- The types that no document has to define. -/
def builtinTypes : List String :=
  ["UUID", "Boolean", "Integer", "Int16", "Int32", "Int64", "UInt8", "Decimal", "Double", "Date",
    "Time", "DateTime", "Timestamp", "String", "LargeString", "Binary", "LargeBinary", "Vector",
    "Map", "Association", "Composition"]

/-- The name starts with the characters of `start`. -/
def nameStartsWith (name start : String) : Bool :=
  start.toList.isPrefixOf name.toList

/-- The name of a built-in type. -/
def isBuiltinType (name : String) : Bool :=
  nameStartsWith name "cds." || nameStartsWith name "hana." || builtinTypes.contains name

/-- The name starts with a dollar sign. -/
def isDollarName (name : String) : Bool :=
  nameStartsWith name "$"

/-- The part of a name after its last dot. -/
def unqualified (name : String) : String :=
  String.ofList ((name.toList.reverse.takeWhile (· != '.')).reverse)

/-- The properties that hold named members. -/
inductive MemberMap where
  | elements
  | enum
  | params
  | actions
  | mixin
deriving Repr, DecidableEq, Inhabited

/-- The member map that a property name stands for. -/
def MemberMap.ofKey? : String → Option MemberMap
  | "elements" => some .elements
  | "enum" => some .enum
  | "params" => some .params
  | "actions" => some .actions
  | "mixin" => some .mixin
  | _ => none

/-- The word for one member of a map. -/
def MemberMap.label : MemberMap → String
  | .elements => "element"
  | .enum => "enum"
  | .params => "param"
  | .actions => "action"
  | .mixin => "mixin"

namespace Document

variable (doc : Document)

/-! ## Definitions and members -/

/-- The kind of a definition. -/
def kind? (id : NodeId) : Option Kind :=
  (doc.stringProp? id "kind").map Kind.ofText

def elements? (id : NodeId) : Option NodeId :=
  doc.objectProp? id "elements"

def target? (id : NodeId) : Option NodeId :=
  doc.prop? id "target"

def targetAspect? (id : NodeId) : Option NodeId :=
  doc.prop? id "targetAspect"

/-- The type of the items of an array-like member. -/
def itemType? (id : NodeId) : Option NodeId :=
  doc.objectProp? id "items"

def enum? (id : NodeId) : Option NodeId :=
  doc.objectProp? id "enum"

/-- The `type`: the name of a definition, or a reference to a member. -/
def typeRef? (id : NodeId) : Option NodeId :=
  doc.prop? id "type"

/-- The `$origin`: an explicit marker of what a node is derived from. -/
def originMarker? (id : NodeId) : Option NodeId :=
  doc.prop? id "$origin"

def params? (id : NodeId) : Option NodeId :=
  doc.objectProp? id "params"

def actions? (id : NodeId) : Option NodeId :=
  doc.objectProp? id "actions"

/-- The node declares a fact at which a chain of types ends. -/
def hasStructure (id : NodeId) : Bool :=
  (doc.elements? id).isSome || (doc.target? id).isSome || (doc.targetAspect? id).isSome ||
    (doc.enum? id).isSome || (doc.itemType? id).isSome

/-- The query of a view; a projection counts as one. -/
def query? (id : NodeId) : Option NodeId :=
  doc.prop? id "query" <|> doc.prop? id "projection"

/-- The query is given as a projection, which is the body of a `SELECT` itself. -/
def isProjection (id : NodeId) : Bool :=
  !doc.hasProp id "query" && doc.hasProp id "projection"

/-- A member of the elements of a node. -/
def element? (id : NodeId) (name : String) : Option NodeId :=
  (doc.elements? id).bind fun elements => doc.prop? elements name

/-- A member of a navigation environment. -/
def memberIn? (env : NodeId) (name : String) : Option NodeId :=
  (doc.prop? env "elements").bind fun elements => doc.prop? elements name

/-! ## Shapes of references -/

/-- The list of segments of a reference object. -/
def refPath? (id : NodeId) : Option NodeId :=
  (doc.prop? id "ref").filter doc.isArray

/-- The name of a segment: the segment itself, or its `id`. -/
def segmentName? (segment : NodeId) : Option String :=
  doc.string? segment <|> doc.stringProp? segment "id"

/-- The node is a query, given by a `SELECT` or a `SET`. -/
def isQuery (id : NodeId) : Bool :=
  doc.hasProp id "SELECT" || doc.hasProp id "SET"

/-- The node is a string or a reference object. -/
def isRefLike (id : NodeId) : Bool :=
  doc.isString id || (doc.refPath? id).isSome

/-- The name of the last segment of a list of segments. -/
def lastName? (refPath : NodeId) : Option String :=
  (doc.itemsAt refPath).getLast?.bind doc.segmentName?

/-- The alias that a source without explicit one gets: its last name, unqualified. -/
def implicitAlias? (refPath : NodeId) : Option String :=
  (doc.lastName? refPath).map unqualified

/-- The name of the member that a column yields: an explicit one, or its last segment. -/
def columnName? (column : NodeId) : Option String :=
  doc.stringProp? column "as" <|> (doc.refPath? column).bind doc.lastName?

end Document

end SchemaRefs
