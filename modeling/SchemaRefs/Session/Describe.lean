import SchemaRefs.Session.Basic

/-!
# Semantic locations

A path is described in the words of its definition, such as `entity:"Books"/element:"genre"/on`,
together with the location of the deepest node on the way that carries one. The walk follows the
path as far as it leads. Queries are shown by their numbers, columns by their names or positions,
and expressions only by the property that holds them.
-/

namespace SchemaRefs

/-- A description of a path. -/
structure Description where
  location : Option Location
  semantic : String
deriving Repr, DecidableEq, Inhabited

namespace Description

/-- A name between quotes. -/
def quoted (name : String) : String :=
  "\"" ++ name ++ "\""

/-- The state of a description. -/
structure Progress where
  node : NodeId
  parts : List String
  location : Option Location
  memberMap : Option MemberMap := none
  inColumns : Bool := false
  inExpression : Bool := false
  lastQuery : Option Nat := none
deriving Repr, DecidableEq, Inhabited

/-- The progress with another part. -/
def Progress.say (progress : Progress) (part : String) : Progress :=
  { progress with parts := progress.parts ++ [part] }

variable (doc : Document) (queryOf? : NodeId → Option Nat)

/-- The words for a definition. -/
def definitionPart (definition : NodeId) : String :=
  let kind := ((doc.kind? definition).map Kind.text).getD "artifact"
  kind ++ ":" ++ quoted ((doc.definitionName? definition).getD "")

/-- The words for a column. -/
def columnPart (column : NodeId) (step : Step) : String :=
  match doc.columnName? column, step with
  | some name, _ => "column:" ++ quoted name
  | none, .index position => "column:" ++ toString (position + 1)
  | none, .key key => "column:" ++ quoted key

/-- The properties below which the path goes on in a structure. -/
def isStructureKey (key : String) : Bool :=
  key == "items" || key == "returns" || key == "targetAspect" || key == "target"

/-- A step by a property of a structure. -/
def describeKey (key : String) (next : NodeId) (progress : Progress) : Progress :=
  match (MemberMap.ofKey? key).filter fun _ => doc.isObject next with
  | some map => { progress with memberMap := some map }
  | none =>
    if key == "columns" then { progress with inColumns := true }
    else if key == "SELECT" || key == "SET" || key == "args" then progress
    else if isStructureKey key && doc.isObject next then progress.say key
    else { progress with inExpression := true }.say key

/-- A step onto the query with an index, which is shown when it is another one than before. -/
def describeQuery (index : Nat) (progress : Progress) : Progress :=
  let number := index + 1
  let shown := if progress.lastQuery = some number then progress
    else { progress with lastQuery := some number }.say ("query:" ++ toString number)
  { shown with inExpression := false, inColumns := false }

/-- The words for one step onto `next`. -/
def describeStep (step : Step) (next : NodeId) (progress : Progress) : Progress :=
  match progress.memberMap with
  | some map => { progress with memberMap := none }.say (map.label ++ ":" ++ quoted step.text)
  | none =>
    match queryOf? next with
    | some index => describeQuery index progress
    | none =>
      if progress.inColumns then
        { progress with inColumns := false, inExpression := true }.say (columnPart doc next step)
      else if progress.inExpression then progress
      else match step with
        | .key key => describeKey doc key next progress
        | .index _ => progress

/-- The words for all steps, up to the first that leads nowhere. -/
def describeSteps : List Step → Progress → Progress
  | [], progress => progress
  | step :: rest, progress =>
    match doc.follow? progress.node step with
    | none => progress
    | some next =>
      let moved := describeStep doc queryOf? step next progress
      describeSteps rest
        { moved with node := next, location := doc.location? next <|> moved.location }

/-- The description of steps below a definition, whose queries are numbered by `queryOf?`. -/
def ofSteps (definition : NodeId) (steps : List Step) : Description :=
  let progress := describeSteps doc queryOf? steps
    { node := definition, parts := [definitionPart doc definition],
      location := doc.location? definition }
  { location := progress.location, semantic := "/".intercalate progress.parts }

end Description

namespace Model

open CacheM

variable (m : Model)

/-- The topology that numbers the queries of a definition: the cached one, or one that is built and
not kept. A definition whose queries are malformed has none. -/
def topologyFor? (definition : NodeId) (cache : Cache) : Option Topology :=
  cache.get? .topology definition <|>
    (m.doc.buildTopology m.options definition).toOption.map Prod.fst

/-- The description of a path. The cache is not changed. -/
def describe (path : Path) : CacheM Description := do
  match path.definitionName?.bind m.doc.definition? with
  | none => fail (.outsideDefinition path)
  | some definition =>
    let topology := m.topologyFor? definition (← get)
    let queryOf? := fun node => topology.bind fun topology => topology.queryOf? node
    return Description.ofSteps m.doc queryOf? definition path.inner

end Model

end SchemaRefs
