/-!
# Doubles, exactly

A finite IEEE double is a sign, an integer below 2^53 and a power of two. Reading a decimal text
rounds it to the nearest double, half to even, in exact integer arithmetic; nothing here goes
through machine floats, so every value can be computed inside a proof.
-/

namespace MathMarkup

/-- The number that some digits write; without any it is zero. -/
def digitsValue (ds : List Char) : Nat :=
  ds.foldl (fun n d => n * 10 + (d.toNat - '0'.toNat)) 0

/-- The number of decimal digits of a number. -/
def decimalLength (n : Nat) : Nat :=
  if n < 10 then 1 else 1 + decimalLength (n / 10)

/-- A finite double: `mantissa * 2 ^ exponent` with a sign. A non-zero mantissa has 53 bits unless
the exponent is the least one, -1074. -/
structure Binary64 where
  negative : Bool
  mantissa : Nat
  exponent : Int
  deriving DecidableEq, Repr, Inhabited

/-- The quotient rounded to the nearest integer, half to even. -/
def roundHalfEven (num den : Nat) : Nat :=
  let q := num / den
  let twice := 2 * (num % den)
  if twice < den then q else if den < twice then q + 1 else q + q % 2

/-- `a * base ^ e` as a fraction. -/
def scaled (a base : Nat) (e : Int) : Nat × Nat :=
  if 0 ≤ e then (a * Nat.pow base e.toNat, 1) else (a, Nat.pow base (-e).toNat)

namespace Binary64

/-- The least mantissa of 53 bits, the fifty-second power of two. -/
def leastMantissa : Nat := 4503599627370496

/-- Zero with a sign. -/
def zero (negative : Bool) : Binary64 :=
  ⟨negative, 0, -1074⟩

/-- The exponent that gives a positive fraction a mantissa of 53 bits, or the least exponent. -/
def exponentFor (num den : Nat) : Int :=
  let q : Int := (num.log2 : Int) - den.log2 - 52
  let (n, d) := scaled num 2 (-q)
  max (-1074) (if n < leastMantissa * (d * den) then q - 1 else q)

/-- The double nearest to a positive fraction, unless that is infinite. -/
def ofFraction? (negative : Bool) (num den : Nat) : Option Binary64 :=
  let q := exponentFor num den
  let (n, d) := scaled num 2 (-q)
  let m := roundHalfEven n (d * den)
  let (m, q) := if m = 2 * leastMantissa then (leastMantissa, q + 1) else (m, q)
  if q ≤ 971 then some ⟨negative, m, q⟩ else none

/-- The double nearest to `digits * 10 ^ e`, unless that is infinite. Powers far outside of the
range are decided without being computed. -/
def ofDecimal? (negative : Bool) (digits : Nat) (e : Int) : Option Binary64 :=
  if digits = 0 then some (zero negative)
  else
    let magnitude := e + decimalLength digits
    if 310 < magnitude then none
    else if magnitude < -330 then some (zero negative)
    else
      let (num, den) := scaled digits 10 e
      ofFraction? negative num den

end Binary64
end MathMarkup
