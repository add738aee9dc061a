import SchemaRefs.Context
import SchemaRefs.Location
import SchemaRefs.NodeId
import SchemaRefs.Path

/-!
# Failures

A request can fail in two ways. A `ModelError` says that the document is malformed or that a
reference cannot be resolved; it is reported to the user and other requests go on. An `Assertion`
says that the session itself is in a state it should never be in, and must not be swallowed.
-/

namespace SchemaRefs

/-! ## Model errors -/

/-- The kinds of failures caused by a document. -/
inductive ModelErrorKind where
  /-- A name that should denote a top-level definition does not. -/
  | unknownDefinition
  /-- A segment names no member of the environment it is looked up in. -/
  | unknownName
  /-- More than one table alias provides a member of this name. -/
  | ambiguousName
  /-- A node that must be navigated into has neither elements nor a target. -/
  | missingEnvironment
  /-- A reference is neither a string nor a non-empty list of segments. -/
  | invalidReference
  /-- A chain of types comes back to itself. -/
  | circularType
  /-- The shape of a query is inconsistent. -/
  | malformedQuery
  /-- The reference stands at a position without a resolution policy. -/
  | unsupportedContext
  /-- A path does not lead to a node. -/
  | invalidPath
deriving Repr, DecidableEq, Inhabited

/-- The words for a kind of failure. -/
def ModelErrorKind.text : ModelErrorKind → String
  | .unknownDefinition => "unknown definition"
  | .unknownName => "unknown name"
  | .ambiguousName => "ambiguous name"
  | .missingEnvironment => "no navigation environment"
  | .invalidReference => "invalid reference"
  | .circularType => "circular type reference"
  | .malformedQuery => "malformed query"
  | .unsupportedContext => "unsupported reference context"
  | .invalidPath => "invalid document path"

/-- A recoverable failure caused by the document. -/
structure ModelError where
  kind : ModelErrorKind
  message : String
  /-- The offending name. -/
  name : Option String := none
  /-- The context of the reference being resolved. -/
  context : Option Context := none
  location : Option Location := none
deriving Repr, DecidableEq, Inhabited

namespace ModelError

/-- The error with the given name, whatever it had before. -/
def withName (error : ModelError) (name : String) : ModelError :=
  { error with name := some name }

/-- The error with a context, unless it has one already. -/
def withContext (error : ModelError) (context : Context) : ModelError :=
  { error with context := error.context <|> some context }

/-- The error with a location, unless it has one already. -/
def withLocation (error : ModelError) (location : Option Location) : ModelError :=
  { error with location := error.location <|> location }

/-- The text of an error: kind and message, then context and location as far as known. -/
def text (error : ModelError) : String :=
  let context := match error.context with
    | some context => " (in `" ++ context.tag ++ "`)"
    | none => ""
  let location := match error.location with
    | some location => " at " ++ location.text
    | none => ""
  error.kind.text ++ ": " ++ error.message ++ context ++ location

/-! ### The failures of this library -/

/-- A name denotes no definition. -/
def noDefinition (name : String) : ModelError :=
  { kind := .unknownDefinition, message := "no definition `" ++ name ++ "`", name }

/-- The target of an association denotes no definition. -/
def noTarget (name : String) (location : Option Location) : ModelError :=
  { kind := .unknownDefinition, message := "association target `" ++ name ++ "` is not defined",
    name, location }

/-- A name is not found in the given place. -/
def notFound (name place : String) : ModelError :=
  { kind := .unknownName, message := "`" ++ name ++ "` not found in " ++ place, name }

/-- A name is provided by two table aliases of a query. -/
def ambiguous (name first second : String) (number : Nat) : ModelError :=
  { kind := .ambiguousName,
    message := "`" ++ name ++ "` is provided by both `" ++ first ++ "` and `" ++ second ++
      "` in query " ++ toString number,
    name }

/-- A segment has no environment for the next one. -/
def noElements (name next : String) : ModelError :=
  { kind := .missingEnvironment,
    message := "`" ++ name ++ "` has no elements to look up `" ++ next ++ "` in", name }

/-- A source of a query cannot be navigated into. -/
def noSourceElements (name : String) : ModelError :=
  { kind := .missingEnvironment, message := "`" ++ name ++ "` in FROM has no elements", name }

/-- An association has no target from which keys could be taken. -/
def noKeyTarget (association : Path) (name : String) : ModelError :=
  { kind := .missingEnvironment,
    message := "`" ++ association.text ++ "` has no target to take keys from", name }

/-- The outer reference of a filter or of an expanded column provides no elements. -/
def noBaseElements (name : String) : ModelError :=
  { kind := .missingEnvironment, message := "no elements to look up `" ++ name ++ "` in", name }

/-- A reference has no segments. -/
def emptyReference : ModelError :=
  { kind := .invalidReference, message := "reference path is empty" }

/-- A segment of a reference has no name. -/
def namelessSegment (segment : Path) : ModelError :=
  { kind := .invalidReference, message := "segment `" ++ segment.text ++ "` has no name" }

/-- A node is not a reference. -/
def notReference (node : Path) : ModelError :=
  { kind := .invalidReference, message := "`" ++ node.text ++ "` is not a reference" }

/-- There is no reference at a path. -/
def noReference (path : Path) : ModelError :=
  { kind := .invalidReference, message := "no reference at `" ++ path.text ++ "`" }

/-- A reference depends on itself. -/
def selfDependent (path : Path) : ModelError :=
  { kind := .circularType, message := "reference at `" ++ path.text ++ "` depends on itself" }

/-- The chain of types from a node comes back to itself. -/
def circular (node : Path) (location : Option Location) : ModelError :=
  { kind := .circularType, message := "type chain of `" ++ node.text ++ "` refers to itself",
    name := node.text, location }

/-- A query is malformed at a node with the given location. -/
def malformed (message : String) (location : Option Location) : ModelError :=
  { kind := .malformedQuery, message, location }

/-- There are no resolution rules for references below a property. -/
def unsupported (key : String) (path : Path) : ModelError :=
  { kind := .unsupportedContext,
    message := "no resolution rules for references below `" ++ key ++ "` (at `" ++
      path.text ++ "`)",
    name := key }

/-- A name should be found in the sources of a query, but there is no query. -/
def outsideQuery (name : String) : ModelError :=
  { kind := .unsupportedContext,
    message := "`" ++ name ++ "` refers to query sources outside of a query", name }

/-- A path does not name a definition in its first steps. -/
def noDefinitionPath (path : Path) : ModelError :=
  { kind := .invalidPath,
    message := "`" ++ path.text ++ "` does not start with `definitions/<name>`" }

/-- A path does not lead into a definition of the document. -/
def outsideDefinition (path : Path) : ModelError :=
  { kind := .invalidPath, message := "`" ++ path.text ++ "` does not lead into a definition" }

/-- A path leads nowhere at one of its steps. -/
def deadEnd (path : Path) (step : Step) : ModelError :=
  { kind := .invalidPath,
    message := "`" ++ path.text ++ "` leads nowhere at step `" ++ step.text ++ "`" }

end ModelError

/-! ## Assertions -/

/-- What can be wrong with a session. -/
inductive Assertion where
  /-- A cache entry is claimed for a definition that does not own it. -/
  | foreignEntry (node owner claimed : NodeId)
  /-- A memoized fact would change. -/
  | factChange (fact : String) (node : NodeId) (old new : String)
  /-- A node belongs to no top-level definition. -/
  | outsideDefinitions (node : NodeId)
  /-- A node is not a top-level definition. -/
  | notDefinition (node : NodeId)
  /-- A node is not a query of a definition. -/
  | notQuery (query definition : NodeId)
  /-- The walk through enclosing queries does not end. -/
  | endlessScopes (number : Nat)
  /-- A query scope does not exist. -/
  | noScope (index : Nat)
  /-- A sub-query does not exist. -/
  | noSubquery (index : Nat)
  /-- A source of a query was resolved without links. -/
  | unlinkedSource (path : Path)
  /-- A filter decorates a segment that was not resolved. -/
  | unlinkedFilter (segment : Nat) (path : Path) (links : Nat)
  /-- Requests are nested deeper than the document allows. -/
  | endlessNesting
  | other (message : String)
deriving Repr, DecidableEq, Inhabited

/-- The text of an assertion. -/
def Assertion.message : Assertion → String
  | .foreignEntry node owner claimed =>
    "cache entry of node " ++ toString node ++ " belongs to definition " ++ toString owner ++
      ", not " ++ toString claimed
  | .factChange fact node old new =>
    "cached fact " ++ fact ++ " of node " ++ toString node ++ " would change from " ++ old ++
      " to " ++ new
  | .outsideDefinitions node => "node " ++ toString node ++ " lies outside every definition"
  | .notDefinition node => "node " ++ toString node ++ " is not a top-level definition"
  | .notQuery query definition =>
    "node " ++ toString query ++ " is not a query of definition " ++ toString definition
  | .endlessScopes number =>
    "lexical scope chain of query " ++ toString number ++ " does not terminate"
  | .noScope index => "query scope " ++ toString index ++ " is not part of the topology"
  | .noSubquery index => "sub-query " ++ toString index ++ " is not part of the topology"
  | .unlinkedSource path => "FROM reference `" ++ path.text ++ "` resolved without links"
  | .unlinkedFilter segment path links =>
    "filter on segment " ++ toString segment ++ " of `" ++ path.text ++ "` which has " ++
      toString links ++ " links"
  | .endlessNesting => "nested requests do not terminate"
  | .other message => message

/-! ## Failures of a request -/

/-- Why a request failed. -/
inductive ResolveError where
  | model (error : ModelError)
  | assertion (cause : Assertion)
deriving Repr, DecidableEq, Inhabited

namespace ResolveError

/-- The failure must not be swallowed. -/
def isInternal : ResolveError → Bool
  | .model _ => false
  | .assertion _ => true

/-- The text of a failure. -/
def text : ResolveError → String
  | .model error => "model error: " ++ error.text
  | .assertion cause => "internal assertion failed: " ++ cause.message

/-- Applies a function to the model error of a failure. -/
def mapModel (f : ModelError → ModelError) : ResolveError → ResolveError
  | .model error => .model (f error)
  | .assertion cause => .assertion cause

end ResolveError

end SchemaRefs
