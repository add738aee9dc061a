/-!
# Document paths

A path is the sequence of property names and array positions that leads from the root of a document
to one of its nodes. Its text joins the steps with slashes, without escapes: `Path.parse` reads
every step of digits that fits 64 bits as a position and drops empty steps.
-/

namespace SchemaRefs

/-- One step of a path: a property of an object, or a position in an array. -/
inductive Step where
  | key (name : String)
  | index (position : Nat)
deriving Repr, DecidableEq, Inhabited

namespace Step

/-- The property name of a key step. -/
def key? : Step → Option String
  | .key name => some name
  | .index _ => none

/-- The position of an index step. -/
def index? : Step → Option Nat
  | .key _ => none
  | .index position => some position

/-- The step is the property `name`. -/
def isKey (step : Step) (name : String) : Bool :=
  step.key? == some name

/-- The decimal digits of a position. -/
def positionText (position : Nat) : String :=
  String.ofList (Nat.toDigits 10 position)

/-- The text of a step. -/
def text : Step → String
  | .key name => name
  | .index position => positionText position

/-- The number of positions that an index step of a text can denote. -/
def positionBound : Nat := UInt64.size

/-- The number written by decimal digits. -/
def digitsValue (digits : List Char) : Nat :=
  digits.foldl (fun n c => n * 10 + (c.toNat - 48)) 0

/-- The step that a piece of text stands for: digits within bounds are a position. -/
def ofChars (cs : List Char) : Step :=
  if cs ≠ [] ∧ cs.all Char.isDigit ∧ digitsValue cs < positionBound then .index (digitsValue cs)
  else .key (String.ofList cs)

end Step

/-- A path, given by its steps from the root. -/
structure Path where
  steps : List Step
deriving Repr, DecidableEq, Inhabited

namespace Path

/-- The path of the root. -/
def root : Path := ⟨[]⟩

/-- The path of a top-level definition. -/
def definition (name : String) : Path :=
  ⟨[.key "definitions", .key name]⟩

/-- The path extended by one step. -/
def push (path : Path) (step : Step) : Path :=
  ⟨path.steps ++ [step]⟩

/-- The path without its last step, and that step. -/
def pop (path : Path) : Path × Option Step :=
  (⟨path.steps.dropLast⟩, path.steps.getLast?)

/-- The number of steps. -/
def length (path : Path) : Nat :=
  path.steps.length

/-- The last step. -/
def last? (path : Path) : Option Step :=
  path.steps.getLast?

/-- The step at a position. -/
def get? (path : Path) (position : Nat) : Option Step :=
  path.steps[position]?

/-- The path starts with all steps of `other`. -/
def startsWith (path other : Path) : Bool :=
  other.steps.isPrefixOf path.steps

/-- The name of the top-level definition that the path leads into. -/
def definitionName? : Path → Option String
  | ⟨.key "definitions" :: .key name :: _⟩ => some name
  | _ => none

/-- The steps below the top-level definition. -/
def inner (path : Path) : List Step :=
  path.steps.drop 2

/-- The text of a path: its steps, divided by slashes. -/
def text (path : Path) : String :=
  "/".intercalate (path.steps.map Step.text)

/-- The pieces of a text between slashes. -/
def pieces : List Char → List (List Char)
  | [] => [[]]
  | c :: rest =>
    if c = '/' then [] :: pieces rest
    else match pieces rest with
      | piece :: others => (c :: piece) :: others
      | [] => [[c]]

/-- Reads a text as a path. Empty pieces are dropped. -/
def parse (text : String) : Path :=
  ⟨((pieces text.toList).filter fun piece => !piece.isEmpty).map Step.ofChars⟩

end Path

end SchemaRefs
