import SchemaRefs.Json.Basic

/-!
# Reading JSON text

`Json.parse` accepts exactly one value, with blanks around it. Blanks are space, tab, line feed and
carriage return. Raw control characters, unpaired surrogate escapes and numbers beyond the range
of a double are refused, and so are values nested deeper than the given number of levels.

A repeated key stays in the result as often as it was written; `Json.canonical` settles repetitions.

A value that nobody looks at can also be skipped. Then only the shape of its strings and numbers
counts, not what they stand for.

An integer literal that fits 64 bits is exact, and negative zero is not such a literal. Every other
number is a double, computed from its first digits: digits join a 64-bit significand as long as it
does not overflow, and the significand is then scaled by a power of ten.
-/

namespace SchemaRefs.Json

/-- A reader takes a value off the front of a text and returns the rest. -/
abbrev Reader (α : Type) := List Char → Option (α × List Char)

/-- The blanks between tokens. -/
def isBlank (c : Char) : Bool :=
  c = ' ' || c = '\t' || c = '\n' || c = '\r'

/-- The text without its leading blanks. -/
def skipBlanks (cs : List Char) : List Char :=
  cs.dropWhile isBlank

/-! ## Numbers -/

/-- The value of a decimal digit. -/
def digitValue (c : Char) : Nat :=
  c.toNat - 48

/-- Appends digits to a significand while it stays below `2^64`; also counts those taken. -/
def accumulate (significand : Nat) : List Char → Nat × Nat
  | [] => (significand, 0)
  | d :: rest =>
    let next := significand * 10 + digitValue d
    if next < UInt64.size then
      let (result, taken) := accumulate next rest
      (result, taken + 1)
    else (significand, 0)

/-- The double nearest to `10^n`, for `n` up to 308. -/
def powerOfTen (n : Nat) : Float :=
  Float.ofScientific 1 false n

/-- `f / 10^n`, dividing by `10^308` as long as the power is out of range. -/
def scaleDown (f : Float) (n : Nat) : Float :=
  if n ≤ 308 then f / powerOfTen n
  else if f == 0 then f
  else scaleDown (f / powerOfTen 308) (n - 308)
termination_by n

/-- `significand * 10^exponent` as a double; nothing when it is too large. -/
def scale (significand : Nat) (exponent : Int) : Option Float :=
  let f := (UInt64.ofNat significand).toFloat
  match exponent with
  | .ofNat n =>
    if n ≤ 308 then
      let product := f * powerOfTen n
      if product.isInf then none else some product
    else if significand = 0 then some f
    else none
  | .negSucc n => some (scaleDown f (n + 1))

/-- The number with the given sign, digits before and after the point, and exponent. -/
def doubleOf (negative : Bool) (whole fraction : List Char) (exponent : Int) : Option Number := do
  let (significand, taken) := accumulate 0 whole
  let dropped := whole.length - taken
  let (significand, places) := accumulate significand fraction
  let f ← scale significand (exponent + dropped - places)
  some (.double (if negative then -f else f).toBits)

/-- The number written by an integer literal. -/
def integerOf (negative : Bool) (whole : List Char) : Option Number :=
  let (significand, taken) := accumulate 0 whole
  if taken < whole.length then doubleOf negative whole [] 0
  else if !negative then some (.integer significand)
  else if 0 < significand ∧ significand ≤ UInt64.size / 2 then some
    (.integer (-(significand : Int)))
  else doubleOf negative whole [] 0

/-- Takes the digits off the front of a text; at least one is required. -/
def readDigits : Reader (List Char) := fun cs =>
  match cs.takeWhile Char.isDigit with
  | [] => none
  | ds => some (ds, cs.dropWhile Char.isDigit)

/-- Reads an exponent after its mark: an optional sign and digits. -/
def readExponent : Reader Int := fun cs => do
  let (negative, rest) := match cs with
    | '+' :: rest => (false, rest)
    | '-' :: rest => (true, rest)
    | rest => (false, rest)
  let (ds, rest) ← readDigits rest
  let magnitude : Int := ds.foldl (fun n d => n * 10 + digitValue d) 0
  some (if negative then -magnitude else magnitude, rest)

/-- Reads the exponent part of a number, if there is one. -/
def readExponentPart : Reader (Option Int) := fun cs =>
  match cs with
  | 'e' :: rest | 'E' :: rest => (readExponent rest).map fun (e, rest) => (some e, rest)
  | rest => some (none, rest)

/-- Reads a number. The whole part has no leading zero. -/
def readNumber : Reader Number := fun cs => do
  let (negative, cs) := match cs with
    | '-' :: rest => (true, rest)
    | rest => (false, rest)
  let (whole, rest) ← readDigits cs
  if whole.head? = some '0' ∧ whole.length ≠ 1 then none
  match rest with
  | '.' :: rest =>
    let (fraction, rest) ← readDigits rest
    let (e, rest) ← readExponentPart rest
    let n ← doubleOf negative whole fraction (e.getD 0)
    some (n, rest)
  | rest =>
    let (e, rest) ← readExponentPart rest
    let n ← match e with
      | some e => doubleOf negative whole [] e
      | none => integerOf negative whole
    some (n, rest)

/-! ## Strings -/

/-- The value of a hexadecimal digit. -/
def hexValue? (c : Char) : Option Nat :=
  if '0' ≤ c ∧ c ≤ '9' then some (c.toNat - 48)
  else if 'a' ≤ c ∧ c ≤ 'f' then some (c.toNat - 87)
  else if 'A' ≤ c ∧ c ≤ 'F' then some (c.toNat - 55)
  else none

/-- The number written by four hexadecimal digits. -/
def hex4? (a b c d : Char) : Option Nat := do
  some (((← hexValue? a) * 16 + (← hexValue? b)) * 256 + (← hexValue? c) * 16 + (← hexValue? d))

/-- The character that a one-letter escape stands for. -/
def simpleEscape? : Char → Option Char
  | '"' => some '"'
  | '\\' => some '\\'
  | '/' => some '/'
  | 'b' => some (Char.ofNat 8)
  | 'f' => some (Char.ofNat 12)
  | 'n' => some '\n'
  | 'r' => some '\r'
  | 't' => some '\t'
  | _ => none

/-- Reads the rest of a string after its opening quote; `done` holds what was read, reversed. -/
def readString (done : List Char) : Reader String
  | '"' :: rest => some (String.ofList done.reverse, rest)
  | '\\' :: 'u' :: a :: b :: c :: d :: rest =>
    match hex4? a b c d with
    | none => none
    | some high =>
      if high < 0xD800 ∨ 0xE000 ≤ high then readString (Char.ofNat high :: done) rest
      else if 0xDC00 ≤ high then none
      else match rest with
        | '\\' :: 'u' :: a :: b :: c :: d :: rest =>
          match hex4? a b c d with
          | none => none
          | some low =>
            if 0xDC00 ≤ low ∧ low < 0xE000 then
              readString
                (Char.ofNat (0x10000 + (high - 0xD800) * 0x400 + (low - 0xDC00)) :: done) rest
            else none
        | _ => none
  | '\\' :: c :: rest =>
    match simpleEscape? c with
    | none => none
    | some c => readString (c :: done) rest
  | c :: rest => if c.toNat < 32 ∨ c = '\\' then none else readString (c :: done) rest
  | [] => none

/-! ## Skipped strings and numbers -/

/-- Skips the rest of a string after its opening quote. Escapes need not denote a character. -/
def skipString : List Char → Option (List Char)
  | '"' :: rest => some rest
  | '\\' :: 'u' :: a :: b :: c :: d :: rest =>
    match hex4? a b c d with
    | none => none
    | some _ => skipString rest
  | '\\' :: c :: rest =>
    match simpleEscape? c with
    | none => none
    | some _ => skipString rest
  | c :: rest => if c.toNat < 32 ∨ c = '\\' then none else skipString rest
  | [] => none

/-- Skips a number of any size. -/
def skipNumber (cs : List Char) : Option (List Char) := do
  let cs := match cs with
    | '-' :: rest => rest
    | rest => rest
  let (whole, rest) ← readDigits cs
  if whole.head? = some '0' ∧ whole.length ≠ 1 then none
  let rest ← match rest with
    | '.' :: rest => (readDigits rest).map Prod.snd
    | rest => some rest
  let (_, rest) ← readExponentPart rest
  some rest

/-- How strings and numbers are read. A string is read after its opening quote. -/
structure Scalars where
  string : Reader String
  number : Reader Number

/-- Strings and numbers are read for their values. -/
def Scalars.read : Scalars where
  string := readString []
  number := readNumber

/-- Strings and numbers are skipped; any value stands for them. -/
def Scalars.skip : Scalars where
  string := fun cs => (skipString cs).map fun rest => ("", rest)
  number := fun cs => (skipNumber cs).map fun rest => (.integer 0, rest)

/-! ## Values -/

/-- Reads the items of an array up to its closing bracket; `fuel` bounds their number. -/
def readItems (item : Reader Json) : (fuel : Nat) → (done : List Json) → Reader (List Json)
  | 0, _, _ => none
  | fuel + 1, done, cs => do
    let (value, rest) ← item cs
    match skipBlanks rest with
    | ',' :: rest => readItems item fuel (value :: done) rest
    | ']' :: rest => some ((value :: done).reverse, rest)
    | _ => none

/-- Reads the properties of an object up to its closing brace; `fuel` bounds their number. How a
value is read may depend on its key. -/
def readProperties (name : Reader String) (item : String → Reader Json) :
    (fuel : Nat) → (done : List (String × Json)) → Reader (List (String × Json))
  | 0, _, _ => none
  | fuel + 1, done, cs =>
    match skipBlanks cs with
    | '"' :: rest => do
      let (key, rest) ← name rest
      match skipBlanks rest with
      | ':' :: rest => do
        let (value, rest) ← item key rest
        match skipBlanks rest with
        | ',' :: rest => readProperties name item fuel ((key, value) :: done) rest
        | '\x7d' :: rest => some (((key, value) :: done).reverse, rest)
        | _ => none
      | _ => none
    | _ => none

/-- Reads a value nested at most `levels` deep; `fuel` bounds the members of each container. -/
def readWith (scalars : Scalars) (fuel : Nat) : (levels : Nat) → Reader Json
  | levels, cs =>
    match skipBlanks cs with
    | 'n' :: 'u' :: 'l' :: 'l' :: rest => some (.null, rest)
    | 't' :: 'r' :: 'u' :: 'e' :: rest => some (.bool true, rest)
    | 'f' :: 'a' :: 'l' :: 's' :: 'e' :: rest => some (.bool false, rest)
    | '"' :: rest => (scalars.string rest).map fun (s, rest) => (.string s, rest)
    | '[' :: rest =>
      match levels with
      | 0 => none
      | levels + 1 =>
        match skipBlanks rest with
        | ']' :: rest => some (.array [], rest)
        | rest => (readItems (readWith scalars fuel levels) fuel [] rest).map
            fun (values, rest) => (.array values, rest)
    | '\x7b' :: rest =>
      match levels with
      | 0 => none
      | levels + 1 =>
        match skipBlanks rest with
        | '\x7d' :: rest => some (.object [], rest)
        | rest =>
          (readProperties scalars.string (fun _ => readWith scalars fuel levels) fuel [] rest).map
            fun (props, rest) => (.object props, rest)
    | cs => (scalars.number cs).map fun (n, rest) => (.number n, rest)

/-- Reads a value nested at most `levels` deep. -/
def readValue (fuel levels : Nat) : Reader Json :=
  readWith .read fuel levels

/-- Skips a value, however deep it is nested. -/
def skipValue (fuel : Nat) : Reader Json := fun cs =>
  (readWith .skip fuel cs.length cs).map fun (_, rest) => (.null, rest)

/-- Reads a whole text as one value nested at most `levels` deep. -/
def parseWithin (levels : Nat) (text : String) : Option Json :=
  let cs := text.toList
  match readValue (cs.length + 1) levels cs with
  | some (value, rest) => if (skipBlanks rest).isEmpty then some value else none
  | none => none

/-- The number of levels to which the values of a text may be nested. -/
def maxLevels : Nat := 127

/-- Reads a text as one value. -/
def parse (text : String) : Option Json :=
  parseWithin maxLevels text

end SchemaRefs.Json
