import MathMarkup.Decimal.Binary64

/-!
# The shortest decimal of a double

A double stands for every real that rounds to it. Its shortest decimal is the one with the fewest
digits among those reals, and of several with as few digits the nearest one. What is left to a
format is collected in a `Layout`: which of two equally near decimals to take, where positional
writing ends, and whether an integral value keeps a point.
-/

namespace MathMarkup

/-- Which of two equally near decimals is taken. -/
inductive Tie where
  | toEven
  | up
  deriving DecidableEq, Repr

/-- A positive decimal `digits * 10 ^ exponent`. -/
structure Decimal where
  digits : Nat
  exponent : Int
  deriving DecidableEq, Repr

namespace Decimal

/-- The decimal exponent of the leading digit of a positive fraction. -/
def leadingExponent (num den : Nat) : Int :=
  if den ≤ num then (decimalLength (num / den) : Int) - 1
  else -(decimalLength ((den + num - 1) / num - 1) : Int)

/-- The reals that round to a double, as fractions over one denominator: the least, the value
itself and the greatest, with whether the ends belong to them. -/
structure Interval where
  low : Nat
  value : Nat
  high : Nat
  den : Nat
  closed : Bool

/-- The interval of a double with a positive mantissa. Below a power of two the neighbour is only
half as far away. -/
def interval (x : Binary64) : Interval :=
  let m := x.mantissa
  let below := if m = Binary64.leastMantissa ∧ -1074 < x.exponent then 1 else 2
  let (unit, den) := scaled 1 2 (x.exponent - 2)
  ⟨(4 * m - below) * unit, 4 * m * unit, (4 * m + 2) * unit, den, m % 2 = 0⟩

/-- Whether `c * 10 ^ grid` lies in an interval. -/
def Interval.contains (i : Interval) (c : Nat) (grid : Int) : Bool :=
  let (num, den) := scaled c 10 grid
  let v := num * i.den
  if i.closed then i.low * den ≤ v && v ≤ i.high * den
  else i.low * den < v && v < i.high * den

/-- The better neighbour of the value on the grid of multiples of `10 ^ grid`, if one of them lies
in the interval. -/
def Interval.onGrid? (i : Interval) (tie : Tie) (grid : Int) : Option Nat :=
  let (num, den) := scaled i.value 10 (-grid)
  let den := den * i.den
  let c := num / den
  let twice := 2 * (num % den)
  let lowerWins := twice < den || (twice == den && tie == .toEven && c % 2 == 0)
  match i.contains c grid && 0 < c, i.contains (c + 1) grid with
  | true, true => some (if lowerWins then c else c + 1)
  | true, false => some c
  | false, true => some (c + 1)
  | false, false => none

/-- The first grid with a hit, from the exponent of the leading digit downwards. Seventeen digits
always suffice. -/
def Interval.search (i : Interval) (tie : Tie) (grid : Int) : Nat → Decimal
  | 0 => ⟨i.value / i.den, 0⟩
  | tries + 1 =>
    match i.onGrid? tie grid with
    | some c => ⟨c, grid⟩
    | none => i.search tie (grid - 1) tries

/-- Moves trailing zeros of the digits into the exponent. -/
def dropTrailingZeros (d : Decimal) : Decimal :=
  if _h : d.digits ≠ 0 ∧ d.digits % 10 = 0 then
    dropTrailingZeros ⟨d.digits / 10, d.exponent + 1⟩
  else d
termination_by d.digits
decreasing_by exact Nat.div_lt_self (Nat.pos_of_ne_zero _h.1) (by decide)

/-- The shortest decimal of a double with a positive mantissa. -/
def shortest (tie : Tie) (x : Binary64) : Decimal :=
  let i := interval x
  (i.search tie (leadingExponent i.value i.den) 17).dropTrailingZeros

end Decimal

/-- How a format writes a double. -/
structure Layout where
  /-- Which of two equally near decimals is written. -/
  tie : Tie
  /-- The exponents of the leading digit that are written positionally. -/
  positional : Int → Bool
  /-- Whether an integral value is written with a point and a zero. -/
  keepsPoint : Bool

namespace Layout

/-- Some zeros. -/
def zeros (n : Nat) : String :=
  String.ofList (List.replicate n '0')

/-- The digits with the point where it belongs. -/
def writePositional (layout : Layout) (d : Decimal) : String :=
  let ds := toString d.digits
  if 0 ≤ d.exponent then ds ++ zeros d.exponent.toNat ++ (if layout.keepsPoint then ".0" else "")
  else
    let places := (-d.exponent).toNat
    let cs := ds.toList
    if places < cs.length then
      String.ofList (cs.take (cs.length - places)) ++ "." ++
        String.ofList (cs.drop (cs.length - places))
    else "0." ++ zeros (places - cs.length) ++ ds

/-- The leading digit, the others after a point, and the signed exponent. -/
def writeScientific (d : Decimal) : String :=
  let cs := (toString d.digits).toList
  let e := d.exponent + cs.length - 1
  let fraction := if cs.length ≤ 1 then "" else "." ++ String.ofList (cs.drop 1)
  String.ofList (cs.take 1) ++ fraction ++ (if e < 0 then "e-" else "e+") ++ toString e.natAbs

/-- The text of a double. -/
def write (layout : Layout) (x : Binary64) : String :=
  let sign := if x.negative then "-" else ""
  if x.mantissa = 0 then sign ++ (if layout.keepsPoint then "0.0" else "0")
  else
    let d := Decimal.shortest layout.tie x
    if layout.positional (d.exponent + decimalLength d.digits - 1) then
      sign ++ layout.writePositional d
    else sign ++ writeScientific d

/-- Always positional, without a superfluous point, and a tie goes up. -/
def plain : Layout :=
  ⟨.up, fun _ => true, false⟩

/-- Positional for exponents from -5 to 15 with a point in every number, and a tie goes to the even
digit. -/
def wire : Layout :=
  ⟨.toEven, fun e => -5 ≤ e && e ≤ 15, true⟩

end Layout
end MathMarkup
