import SchemaRefs.Table

/-!
# JSON values

Values keep the order of object properties. Integers that fit 64 bits are exact; every other
number is a binary64 value, held by its bits so that equality is decidable.

`Json.canonical` settles repeated keys: each object keeps the first position and the last value of
a key, at every level. Its result has distinct keys (`distinctKeys_canonical`).
-/

namespace SchemaRefs

/-- A number: an exact integer, or the bits of a finite binary64 value. -/
inductive Number where
  | integer (value : Int)
  | double (bits : UInt64)
deriving Repr, DecidableEq, Inhabited

/-- The value of a number that is a natural number. -/
def Number.toNat? : Number → Option Nat
  | .integer (.ofNat n) => some n
  | _ => none

inductive Json where
  | null
  | bool (value : Bool)
  | number (value : Number)
  | string (value : String)
  | array (items : List Json)
  | object (props : List (String × Json))
deriving Repr, BEq, Inhabited

namespace Json

/-- The name of a value's type, as it appears in messages. -/
def typeName : Json → String
  | .null => "null"
  | .bool _ => "boolean"
  | .number _ => "number"
  | .string _ => "string"
  | .array _ => "array"
  | .object _ => "object"

/-- A natural number as a JSON value. -/
def nat (n : Nat) : Json :=
  .number (.integer n)

/-- An optional value, with `null` for its absence. -/
def optional {α : Type} (encode : α → Json) : Option α → Json
  | none => .null
  | some a => encode a

/-- Property `key` of an object. -/
def get? : Json → String → Option Json
  | .object props, key => Table.get? props key
  | _, _ => none

/-! ## Size -/

mutual

/-- The number of nodes of a value: itself and everything below it. -/
def size : Json → Nat
  | .array items => 1 + sizeItems items
  | .object props => 1 + sizeProps props
  | _ => 1

/-- The number of nodes of the values of a list. -/
def sizeItems : List Json → Nat
  | [] => 0
  | item :: rest => item.size + sizeItems rest

/-- The number of nodes of the values of a property list. -/
def sizeProps : List (String × Json) → Nat
  | [] => 0
  | (_, value) :: rest => value.size + sizeProps rest

end

theorem size_pos (value : Json) : 0 < value.size := by
  cases value <;> unfold size <;> omega

/-! ## Distinct keys -/

mutual

/-- Every object in the value binds each key once. -/
def DistinctKeys : Json → Prop
  | .array items => DistinctKeysItems items
  | .object props => (Table.keys props).Nodup ∧ DistinctKeysProps props
  | _ => True

/-- Every value of the list has distinct keys. -/
def DistinctKeysItems : List Json → Prop
  | [] => True
  | item :: rest => item.DistinctKeys ∧ DistinctKeysItems rest

/-- Every value of the property list has distinct keys. -/
def DistinctKeysProps : List (String × Json) → Prop
  | [] => True
  | (_, value) :: rest => value.DistinctKeys ∧ DistinctKeysProps rest

end

mutual

def decidableDistinctKeys : (value : Json) → Decidable value.DistinctKeys
  | .null | .bool _ | .number _ | .string _ => isTrue trivial
  | .array items => decidableDistinctKeysItems items
  | .object props => @instDecidableAnd _ _ _ (decidableDistinctKeysProps props)

def decidableDistinctKeysItems : (items : List Json) → Decidable (DistinctKeysItems items)
  | [] => isTrue trivial
  | item :: rest =>
    @instDecidableAnd _ _ (decidableDistinctKeys item) (decidableDistinctKeysItems rest)

def decidableDistinctKeysProps :
    (props : List (String × Json)) → Decidable (DistinctKeysProps props)
  | [] => isTrue trivial
  | (_, value) :: rest =>
    @instDecidableAnd _ _ (decidableDistinctKeys value) (decidableDistinctKeysProps rest)

end

instance (value : Json) : Decidable value.DistinctKeys :=
  value.decidableDistinctKeys

mutual

/-- The value in which a repeated key keeps its first position and takes its last value. -/
def canonical : Json → Json
  | .array items => .array (canonicalItems items)
  | .object props => .object (Table.ofList (canonicalProps props))
  | value => value

/-- `canonical` on every value of a list. -/
def canonicalItems : List Json → List Json
  | [] => []
  | item :: rest => item.canonical :: canonicalItems rest

/-- `canonical` on every value of a property list. -/
def canonicalProps : List (String × Json) → List (String × Json)
  | [] => []
  | (key, value) :: rest => (key, value.canonical) :: canonicalProps rest

end

theorem distinctKeysProps_put {props : List (String × Json)} (h : DistinctKeysProps props)
    (key : String) {value : Json} (hv : value.DistinctKeys) :
    DistinctKeysProps (Table.put props key value) := by
  induction props with
  | nil => simp [Table.put, DistinctKeysProps, hv]
  | cons pair rest ih =>
    obtain ⟨k, v⟩ := pair
    simp only [DistinctKeysProps] at h
    by_cases hk : k = key
    · simp [Table.put, hk, DistinctKeysProps, hv, h.2]
    · simp [Table.put, hk, DistinctKeysProps, h.1, ih h.2]

theorem distinctKeysProps_ofList {props : List (String × Json)} (h : DistinctKeysProps props) :
    DistinctKeysProps (Table.ofList props) := by
  suffices h' : ∀ table : List (String × Json), DistinctKeysProps table →
      DistinctKeysProps (props.foldl (fun t p => Table.put t p.1 p.2) table) from
    h' [] (by simp [DistinctKeysProps])
  induction props with
  | nil => exact fun _ ht => ht
  | cons pair rest ih =>
    obtain ⟨k, v⟩ := pair
    simp only [DistinctKeysProps] at h
    exact fun table ht => ih h.2 _ (distinctKeysProps_put ht k h.1)

mutual

theorem distinctKeys_canonical : (value : Json) → value.canonical.DistinctKeys
  | .null | .bool _ | .number _ | .string _ => by simp [canonical, DistinctKeys]
  | .array items => by
    simpa [canonical, DistinctKeys] using distinctKeys_canonicalItems items
  | .object props => by
    simp only [canonical, DistinctKeys]
    exact ⟨Table.nodup_keys_ofList _,
      distinctKeysProps_ofList (distinctKeys_canonicalProps props)⟩

theorem distinctKeys_canonicalItems : (items : List Json) →
    DistinctKeysItems (canonicalItems items)
  | [] => by simp [canonicalItems, DistinctKeysItems]
  | item :: rest => by
    simp only [canonicalItems, DistinctKeysItems]
    exact ⟨distinctKeys_canonical item, distinctKeys_canonicalItems rest⟩

theorem distinctKeys_canonicalProps : (props : List (String × Json)) →
    DistinctKeysProps (canonicalProps props)
  | [] => by simp [canonicalProps, DistinctKeysProps]
  | (_, value) :: rest => by
    simp only [canonicalProps, DistinctKeysProps]
    exact ⟨distinctKeys_canonical value, distinctKeys_canonicalProps rest⟩

end

end Json

end SchemaRefs
