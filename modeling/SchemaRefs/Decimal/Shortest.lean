/-!
# Shortest decimals of binary64 values

A finite value is `m * 2^q`. It stands for the interval of reals that round to it, whose ends
belong to it exactly when `m` is even. `Binary64.shortest` searches the decimal grids of 1, 2, …, 17
digits for a neighbour of the value that lies in the interval; of two hits on the same grid it takes
the nearer, and the even one of two equally near. All arithmetic is exact.
-/

namespace SchemaRefs

/-- A finite non-negative binary64 value `significand * 2^exponent`. -/
structure Binary64 where
  significand : Nat
  exponent : Int
  /-- The gap to the next smaller value is half the gap to the next larger one. -/
  narrowBelow : Bool
deriving Repr, DecidableEq

/-- A decimal `digits * 10^exponent`. -/
structure Decimal where
  digits : Nat
  exponent : Int
deriving Repr, DecidableEq

/-- The magnitude of the value with the given bits; the sign bit is not read. -/
def Binary64.ofBits (bits : UInt64) : Binary64 :=
  let e := ((bits >>> 52) &&& 0x7FF).toNat
  let f := (bits &&& 0xFFFFFFFFFFFFF).toNat
  if e = 0 then ⟨f, -1074, false⟩
  else ⟨0x10000000000000 + f, (e : Int) - 1075, f == 0 && decide (1 < e)⟩

/-- Compares `a * 10^i` with `n * 2^j`. -/
def compareScaled (a : Nat) (i : Int) (n : Nat) (j : Int) : Ordering :=
  compare (a * Nat.pow 10 i.toNat * Nat.pow 2 (-j).toNat)
    (n * Nat.pow 2 j.toNat * Nat.pow 10 (-i).toNat)

/-- The decimal lies among the reals that round to `x`. -/
def Binary64.readsBack (x : Binary64) (d : Decimal) : Bool :=
  let low := if x.narrowBelow then 4 * x.significand - 1 else 4 * x.significand - 2
  let high := 4 * x.significand + 2
  let closed := x.significand % 2 == 0
  let atLow := compareScaled d.digits d.exponent low (x.exponent - 2)
  let atHigh := compareScaled d.digits d.exponent high (x.exponent - 2)
  (atLow == .gt || (closed && atLow == .eq)) && (atHigh == .lt || (closed && atHigh == .eq))

/-- The whole part of `x / 10^u`. -/
def Binary64.floorOn (x : Binary64) (u : Int) : Nat :=
  x.significand * Nat.pow 2 x.exponent.toNat * Nat.pow 10 (-u).toNat /
    (Nat.pow 2 (-x.exponent).toNat * Nat.pow 10 u.toNat)

/-- The number of decimal digits of a positive number. -/
def digitCount (n : Nat) : Nat :=
  (Nat.toDigits 10 n).length

/-- The decimal exponent of the leading digit of a positive value. -/
def Binary64.leadingExponent (x : Binary64) : Int :=
  (digitCount (x.floorOn (-400)) : Int) - 401

/-- Of the two neighbours of `x` on the grid of multiples of `10^u`, the one that reads back. -/
def Binary64.neighbour? (x : Binary64) (u : Int) : Option Decimal :=
  let below : Decimal := ⟨x.floorOn u, u⟩
  let above : Decimal := ⟨x.floorOn u + 1, u⟩
  match x.readsBack below, x.readsBack above with
  | false, false => none
  | true, false => some below
  | false, true => some above
  | true, true =>
    -- the value against the middle of its two neighbours
    match compareScaled (2 * below.digits + 1) u (2 * x.significand) x.exponent with
    | .lt => some above
    | .gt => some below
    | .eq => some (if below.digits % 2 == 0 then below else above)

/-- The decimal with the fewest digits that reads back as `x`, for a positive `x`. -/
def Binary64.shortest (x : Binary64) : Decimal :=
  let e := x.leadingExponent
  let found := (List.range 17).findSome? fun n => x.neighbour? (e - (n : Nat))
  found.getD
    ⟨x.significand * Nat.pow 2 x.exponent.toNat * Nat.pow 5 (-x.exponent).toNat, min x.exponent 0⟩

/-- The digits of a decimal without trailing zeros, and the exponent of the leading one. -/
def Decimal.normalize (d : Decimal) : List Char × Int :=
  let all := Nat.toDigits 10 d.digits
  let kept := (all.reverse.dropWhile (· == '0')).reverse
  (kept, d.exponent + all.length - 1)

end SchemaRefs
