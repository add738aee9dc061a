import SchemaRefs.Json.Basic
import SchemaRefs.Decimal.Shortest

/-!
# JSON text

`Json.compress` writes a value without spaces, `Json.pretty` with two spaces of indentation.
Property order is kept. In strings only quotes, backslashes and control characters are escaped.
Doubles have the fewest digits that read back; they are written positionally when the exponent of
the leading digit is from -5 to 15, and always show a point or an exponent.
-/

namespace SchemaRefs.Json

/-! ## Numbers -/

/-- The text of the digits `ds` whose leading digit has exponent `e`. -/
def layoutDouble (ds : List Char) (e : Int) : List Char :=
  if -5 ≤ e ∧ e ≤ 15 then
    if e < 0 then
      ['0', '.'] ++ List.replicate ((-e).toNat - 1) '0' ++ ds
    else
      let whole := e.toNat + 1
      if ds.length ≤ whole then
        ds ++ List.replicate (whole - ds.length) '0' ++ ['.', '0']
      else
        ds.take whole ++ ['.'] ++ ds.drop whole
  else
    let mantissa := match ds with
      | d :: [] => [d]
      | d :: rest => d :: '.' :: rest
      | [] => ['0']
    let sign := if e < 0 then '-' else '+'
    mantissa ++ ['e', sign] ++ Nat.toDigits 10 e.natAbs

/-- The text of the double with the given bits. -/
def doubleText (bits : UInt64) : String :=
  let x := Binary64.ofBits bits
  let sign := if bits >>> 63 == 0 then [] else ['-']
  let magnitude :=
    if x.significand = 0 then ['0', '.', '0']
    else
      let (ds, e) := x.shortest.normalize
      layoutDouble ds e
  String.ofList (sign ++ magnitude)

/-- The text of a number. -/
def numberText : Number → String
  | .integer value => toString value
  | .double bits => doubleText bits

/-! ## Strings -/

/-- The lower-case hexadecimal digit of a number below 16. -/
def hexDigit (n : Nat) : Char :=
  if n < 10 then Char.ofNat (48 + n) else Char.ofNat (87 + n)

/-- How a character is written inside a string. -/
def escapeChar (c : Char) : List Char :=
  if c = '"' then ['\\', '"']
  else if c = '\\' then ['\\', '\\']
  else if c.toNat = 8 then ['\\', 'b']
  else if c.toNat = 9 then ['\\', 't']
  else if c.toNat = 10 then ['\\', 'n']
  else if c.toNat = 12 then ['\\', 'f']
  else if c.toNat = 13 then ['\\', 'r']
  else if c.toNat < 32 then
    ['\\', 'u', '0', '0', hexDigit (c.toNat / 16), hexDigit (c.toNat % 16)]
  else [c]

/-- A string between quotes, with the necessary escapes. -/
def quote (text : String) : String :=
  String.ofList ('"' :: text.toList.flatMap escapeChar ++ ['"'])

/-! ## Values -/

mutual

/-- The text of a value without spaces. -/
def compress : Json → String
  | .null => "null"
  | .bool true => "true"
  | .bool false => "false"
  | .number n => numberText n
  | .string s => quote s
  | .array items => "[" ++ ",".intercalate (compressItems items) ++ "]"
  | .object props => "\x7b" ++ ",".intercalate (compressProps props) ++ "\x7d"

/-- The texts of the items of an array. -/
def compressItems : List Json → List String
  | [] => []
  | item :: rest => item.compress :: compressItems rest

/-- The texts of the properties of an object. -/
def compressProps : List (String × Json) → List String
  | [] => []
  | (key, value) :: rest => (quote key ++ ":" ++ value.compress) :: compressProps rest

end

/-- The blanks that start a line at nesting level `depth`. -/
def indent (depth : Nat) : String :=
  String.ofList (List.replicate (2 * depth) ' ')

/-- The lines `parts` between brackets, one level deeper than `depth`. -/
def block (opening closing : String) (depth : Nat) (parts : List String) : String :=
  match parts with
  | [] => opening ++ closing
  | parts =>
    opening ++ "\n" ++ ",\n".intercalate (parts.map (indent (depth + 1) ++ ·)) ++ "\n" ++
      indent depth ++ closing

mutual

/-- The text of a value whose inner lines are indented below `depth`. -/
def prettyAt (depth : Nat) : Json → String
  | .array items => block "[" "]" depth (prettyItems (depth + 1) items)
  | .object props => block "\x7b" "\x7d" depth (prettyProps (depth + 1) props)
  | .null => "null"
  | .bool true => "true"
  | .bool false => "false"
  | .number n => numberText n
  | .string s => quote s

/-- The texts of the items of an array, one level down. -/
def prettyItems (depth : Nat) : List Json → List String
  | [] => []
  | item :: rest => item.prettyAt depth :: prettyItems depth rest

/-- The texts of the properties of an object, one level down. -/
def prettyProps (depth : Nat) : List (String × Json) → List String
  | [] => []
  | (key, value) :: rest => (quote key ++ ": " ++ value.prettyAt depth) :: prettyProps depth rest

end

/-- The text of a value with two spaces of indentation per level. -/
def pretty (value : Json) : String :=
  value.prettyAt 0

end SchemaRefs.Json
