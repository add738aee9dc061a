import SchemaRefs.Json.Parser

/-!
# Source locations

A location names a file and, as far as known, a line, a column and where the construct ends. Its
text shows the column only after a line.
-/

namespace SchemaRefs

/-- A position in a source file. -/
structure Location where
  file : String
  line : Option UInt32 := none
  col : Option UInt32 := none
  endLine : Option UInt32 := none
  endCol : Option UInt32 := none
deriving Repr, DecidableEq, Inhabited

namespace Location

/-- The location points to a line of its file. -/
def hasPosition (location : Location) : Bool :=
  location.line.isSome

/-- The text of a location. -/
def text (location : Location) : String :=
  match location.line, location.col with
  | some line, some col => location.file ++ ":" ++ toString line.toNat ++ ":" ++ toString col.toNat
  | some line, none => location.file ++ ":" ++ toString line.toNat
  | none, _ => location.file

/-! ## As a JSON value -/

/-- A natural number that fits a field of a location. -/
def field? (n : Nat) : Option UInt32 :=
  if n < UInt32.size then some (UInt32.ofNat n) else none

/-- An optional field as a property list; an absent number is left out. -/
def fieldProp (key : String) : Option UInt32 → List (String × Json)
  | none => []
  | some n => [(key, .nat n.toNat)]

/-- A location as an object, with its fields in order. -/
def toJson (location : Location) : Json :=
  .object (("file", .string location.file) ::
    fieldProp "line" location.line ++ fieldProp "col" location.col ++
    fieldProp "endLine" location.endLine ++ fieldProp "endCol" location.endCol)

/-- Reads an optional field: `null` or a number that fits. -/
def readField : Json → Option (Option UInt32)
  | .null => some none
  | .number n => do some (some (← field? (← n.toNat?)))
  | _ => none

/-- Reads a field of an object: at most one property of that name. -/
def readProp (props : List (String × Json)) (key : String) : Option (Option UInt32) :=
  match props.filter (·.1 == key) with
  | [] => some none
  | [(_, value)] => readField value
  | _ => none

/-- Reads a field of a list; a missing one is absent. -/
def readItem (items : List Json) (position : Nat) : Option (Option UInt32) :=
  match items[position]? with
  | none => some none
  | some value => readField value

/-- The fields of a location. -/
def isField (key : String) : Bool :=
  ["file", "line", "col", "endLine", "endCol"].contains key

/-- Reads a location from an object, where other properties are ignored, or from a list of its
fields in order. A repeated property is an error, and so is a sixth item. -/
def ofJson? : Json → Option Location
  | .object props => do
    let file ← match props.filter (·.1 == "file") with
      | [(_, .string file)] => some file
      | _ => none
    some { file, line := ← readProp props "line", col := ← readProp props "col",
           endLine := ← readProp props "endLine", endCol := ← readProp props "endCol" }
  | .array items => do
    if 5 < items.length then none
    let file ← match items.head? with
      | some (.string file) => some file
      | _ => none
    some { file, line := ← readItem items 1, col := ← readItem items 2,
           endLine := ← readItem items 3, endCol := ← readItem items 4 }
  | _ => none

/-- The properties of an object that is the whole of a text. Of properties that are no fields only
the shape of the value counts. -/
def readProps (cs : List Char) : Option (List (String × Json)) :=
  let fuel := cs.length + 1
  let item := fun key =>
    if isField key then Json.readValue fuel Json.maxLevels else Json.skipValue fuel
  match Json.skipBlanks cs with
  | '\x7b' :: rest => do
    let (props, rest) ← Json.readProperties (Json.readString []) item fuel [] rest
    if (Json.skipBlanks rest).isEmpty then some props else none
  | _ => none

/-- Reads a location from a text. An object without fields is no location. -/
def parse (text : String) : Option Location :=
  match readProps text.toList with
  | some props => ofJson? (.object props)
  | none => (Json.parse text).bind ofJson?

end Location

end SchemaRefs
