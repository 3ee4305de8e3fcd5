import MathMarkup.Decimal.Binary64

/-!
# JSON values

The wire form of expressions and options. A number is an integer, or a double where it has a
fraction or an exponent, is a negative zero or leaves the range of 64-bit integers. The fields of
an object are kept in the order of their keys' code points, one field for each key.
-/

namespace MathMarkup

/-- A JSON value. -/
inductive Json where
  | null
  | bool (value : Bool)
  /-- An integer that fits 64 bits, signed or unsigned. -/
  | int (value : Int)
  | real (value : Binary64)
  | str (value : String)
  | arr (items : List Json)
  /-- Fields in ascending order of their keys. -/
  | obj (fields : List (String × Json))
  deriving Repr, Inhabited

namespace Json

/-- Whether an integer fits 64 bits with a sign. -/
def fitsSigned (n : Int) : Bool :=
  -9223372036854775808 ≤ n && n ≤ 9223372036854775807

/-- Whether an integer is written and read as an integer: whether it fits 64 bits with or without a
sign. -/
def fitsInteger (n : Int) : Bool :=
  -9223372036854775808 ≤ n && n ≤ 18446744073709551615

/-- Sets a field of sorted fields. -/
def setField (key : String) (value : Json) :
    List (String × Json) → List (String × Json)
  | [] => [(key, value)]
  | (k, v) :: rest =>
    if key < k then (key, value) :: (k, v) :: rest
    else if key = k then (key, value) :: rest
    else (k, v) :: setField key value rest

/-- The object with some fields; the last one with a key wins. -/
def object (fields : List (String × Json)) : Json :=
  .obj (fields.foldl (fun sorted f => setField f.1 f.2 sorted) [])

/-- The value of a field. An absent field has none, and neither has what is no object. -/
def field? (key : String) : Json → Option Json
  | .obj fields => fields.lookup key
  | _ => none

/-- An array of strings. -/
def strings (items : List String) : Json :=
  .arr (items.map .str)

/-- A natural number. -/
def nat (n : Nat) : Json :=
  .int n

/-- A value, or null in place of none. -/
def orNull {α : Type} (encode : α → Json) : Option α → Json
  | some a => encode a
  | none => .null

end Json
end MathMarkup
