import SchemaRefs.CommandLine.Arguments
import SchemaRefs.Document.References
import SchemaRefs.Session.Describe
import SchemaRefs.Session.Origin
import SchemaRefs.Snapshot

/-!
# Reports

A report answers all requests of a command line about one document, in a single session. A model
error is recorded with its request and counted; a failure of the session itself ends the run.
-/

namespace SchemaRefs

open CommandLine

/-- The answer to a request for a reference. -/
structure ReferenceEntry where
  path : String
  resolution : Option Resolution := none
  error : Option String := none
  location : Option Location := none
  semantic : Option String := none
deriving Repr, DecidableEq, Inhabited

/-- The answer to a request for a member. -/
structure MemberEntry where
  path : String
  origin : Option String := none
  effectiveType : Option String := none
  error : Option String := none
deriving Repr, DecidableEq, Inhabited

/-- The answer to a request for a snapshot. -/
inductive SnapshotEntry where
  | taken (snapshot : Snapshot)
  | failed (definition message : String)
deriving Repr, Inhabited

/-- The answers of a run. -/
structure Report where
  references : List ReferenceEntry := []
  members : List MemberEntry := []
  snapshots : List SnapshotEntry := []
  /-- The number of model errors recorded above. -/
  errors : Nat := 0
deriving Repr, Inhabited

namespace Report

/-- Some model error was recorded. -/
def hasErrors (report : Report) : Bool :=
  decide (0 < report.errors)

/-! ## What is asked for -/

variable (doc : Document) (args : Arguments)

/-- The definitions to which the run is restricted, or all of them. -/
def selectedDefinitions : Except (List String) (List NodeId) :=
  match args.definition with
  | none => .ok (doc.definitionEntries.map Prod.snd)
  | some name =>
    match doc.definition? name with
    | some definition => .ok [definition]
    | none => .error ["no definition named `" ++ name ++ "`"]

/-- The paths that the arguments name. -/
def namedPaths : List Path :=
  args.paths.map Path.parse

/-- What is named, then what is found in the selected definitions, if all of it is asked for. -/
def andSelected {α : Type} (named : List α) (found : NodeId → List α) :
    Except (List String) (List α) :=
  if args.has .all then do
    let definitions ← selectedDefinitions doc args
    .ok (named ++ definitions.flatMap found)
  else .ok named

/-- The paths of the references to inspect: those named, then those found. -/
def requestedPaths : Except (List String) (List Path) :=
  andSelected doc args (namedPaths args) doc.referencePaths

/-- A definition and its elements. -/
def definitionMembers (definition : NodeId) : List NodeId :=
  definition :: match doc.elements? definition with
    | some elements => (doc.entries elements).map Prod.snd
    | none => []

/-- The nodes whose origin or effective type is asked for: those named, then definitions with their
elements. -/
def requestedMembers : Except (List String) (List NodeId) :=
  andSelected doc args ((namedPaths args).filterMap doc.nodeAt?) (definitionMembers doc)

/-- The owners of the nodes named, each once. -/
def namedOwners : List NodeId :=
  ((namedPaths args).filterMap fun path => (doc.nodeAt? path).bind doc.owner?).foldl
    (fun owners owner => if owners.contains owner then owners else owners ++ [owner]) []

/-- The definitions to take snapshots of. -/
def requestedSnapshots : Except (List String) (List NodeId) :=
  if args.definition.isSome || args.has .all then selectedDefinitions doc args
  else .ok (namedOwners doc args)

end Report

/-! ## Answers -/

/-- The state of a run: the session, and the report so far. -/
structure Run where
  cache : Cache
  report : Report := {}

namespace Run

variable (run : Run)

/-- The run after a model error. -/
def countError : Run :=
  { run with report := { run.report with errors := run.report.errors + 1 } }

/-- The run with another reference in its report. -/
def addReference (entry : ReferenceEntry) : Run :=
  { run with report := { run.report with references := run.report.references ++ [entry] } }

/-- The run with another member in its report. -/
def addMember (entry : MemberEntry) : Run :=
  { run with report := { run.report with members := run.report.members ++ [entry] } }

/-- The run with another snapshot in its report. -/
def addSnapshot (entry : SnapshotEntry) : Run :=
  { run with report := { run.report with snapshots := run.report.snapshots ++ [entry] } }

end Run

/-- Steps of a run. A run that is ended says why, the outermost reason first. -/
abbrev RunM := ExceptT (List String) (StateM Run)

namespace Report

/-- Asks the session. -/
def observe {α : Type} (action : CacheM α) : RunM (Except ResolveError α) := do
  let run ← get
  let (outcome, cache) := action.run.run run.cache
  set { run with cache }
  return outcome

/-- The text of a model error; any other failure ends the run. -/
def recoverable (error : ResolveError) (path : String) : RunM String :=
  if error.isInternal then throw ["while inspecting " ++ path, error.text]
  else return error.text

variable (m : Model) (args : Arguments)

/-- The resolution of a path, or why there is none. -/
def resolutionEntry (path : Path) : RunM ReferenceEntry := do
  match ← observe (m.inspect path) with
  | .ok resolution => return { path := path.text, resolution := some resolution }
  | .error error =>
    let message ← recoverable error path.text
    modify Run.countError
    return { path := path.text, error := some message }

/-- The entry with the description of its path. A path that has failed already is not counted
again. -/
def describeEntry (path : Path) (entry : ReferenceEntry) : RunM ReferenceEntry := do
  match ← observe (m.describe path) with
  | .ok description =>
    return { entry with location := description.location, semantic := some description.semantic }
  | .error error =>
    let message ← recoverable error path.text
    if entry.error.isSome then return entry
    else
      modify Run.countError
      return { entry with error := some message }

/-- Answers for a path. -/
def answerReference (path : Path) : RunM Unit := do
  let entry ← resolutionEntry m path
  let entry ← if args.has .locations then describeEntry m path entry else pure entry
  modify (·.addReference entry)

/-- A question that is asked if a switch is on. -/
def askIf {α : Type} (switch : Bool) (question : CacheM α) : CacheM (Option α) :=
  if switch then do return some (← question) else return none

/-- What is found out about a member, up to the first failure. -/
def memberFacts (node : NodeId) : RunM (MemberEntry × Option ResolveError) := do
  let entry : MemberEntry := { path := m.doc.pathText node }
  match ← observe (askIf (args.has .origin) (m.origin node)) with
  | .error error => return (entry, some error)
  | .ok origin =>
    let entry := { entry with origin := origin.join.map m.doc.pathText }
    match ← observe (askIf (args.has .effectiveType) (m.effectiveType node)) with
    | .error error => return (entry, some error)
    | .ok type => return ({ entry with effectiveType := type.map m.doc.pathText }, none)

/-- Answers for a member. -/
def answerMember (node : NodeId) : RunM Unit := do
  let (entry, failure) ← memberFacts m args node
  match failure with
  | none => modify (·.addMember entry)
  | some error =>
    let message ← recoverable error entry.path
    modify Run.countError
    modify (·.addMember { entry with error := some message })

/-- Answers for a snapshot. -/
def answerSnapshot (definition : NodeId) : RunM Unit := do
  match ← observe (m.snapshot definition) with
  | .ok snapshot => modify (·.addSnapshot (.taken snapshot))
  | .error error =>
    let name := (m.doc.definitionName? definition).getD ""
    let message ← recoverable error name
    modify (·.addSnapshot (.failed name message))
    modify Run.countError

/-- The outcome of a step that asks nothing. -/
def ofExcept {α : Type} : Except (List String) α → RunM α
  | .ok value => return value
  | .error reasons => throw reasons

/-- Answers for all references. -/
def collectReferences : RunM Unit := do
  (← ofExcept (requestedPaths m.doc args)).forM (answerReference m args)

/-- Answers for all members, if something is to be found out about them. -/
def collectMembers : RunM Unit := do
  if args.has .origin || args.has .effectiveType then
    (← ofExcept (requestedMembers m.doc args)).forM (answerMember m args)

/-- Answers for all snapshots, if they are asked for. -/
def collectSnapshots : RunM Unit := do
  if args.has .snapshot then
    (← ofExcept (requestedSnapshots m.doc args)).forM (answerSnapshot m)

/-- Answers all requests about a document. -/
def collect : RunM Unit := do
  collectReferences m args
  collectMembers m args
  collectSnapshots m args

end Report

/-- What the session of a run is about. -/
def Report.modelFor (doc : Document) (args : Arguments) : Model :=
  { doc, options := { toleratePartial := args.has .toleratePartial } }

/-- The report about a document, in a new session. -/
def Report.ofDocument (doc : Document) (args : Arguments) : Except (List String) Report :=
  let (outcome, run) := (Report.collect (Report.modelFor doc args) args).run.run
    { cache := Cache.empty }
  outcome.map fun _ => run.report

/-- The document in a file and the report about it, given how to read files. -/
def Report.ofFile (readText : String → Except String String) (args : Arguments) :
    Except (List String) (Document × Report) :=
  match readText args.input with
  | .error reason => .error ["failed to read " ++ args.input, reason]
  | .ok text =>
    match Document.ofText text with
    | .error error => .error ["failed to load schema document " ++ args.input, error.message]
    | .ok doc => (Report.ofDocument doc args).map fun report => (doc, report)

end SchemaRefs
