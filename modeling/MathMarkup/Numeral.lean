import MathMarkup.Options

/-!
# Writing numerals

The text of a number is an optional sign, digits, a point and further digits, a repeating part in
parentheses and an exponent. `Numeral.read?` takes such a text apart, and `Numeral.render` writes
it in a number format: digits in groups, counted away from the point on both sides, the repeating
part and the exponent in the format's style. Infinite values and the lack of a value have
renderings of their own.
-/

namespace MathMarkup

/-- The parts of a numeral. -/
structure Numeral where
  negative : Bool
  whole : List Char
  fraction : List Char
  repeating : List Char
  /-- The exponent with its minus sign; empty if there is none. -/
  exponent : List Char
  deriving DecidableEq, Repr

namespace Numeral

/-- Whether every character is an ASCII digit. -/
def areDigits (cs : List Char) : Bool :=
  cs.all Char.isDigit

/-- Without a leading character. -/
def dropLeading (c : Char) (cs : List Char) : List Char :=
  match cs with
  | d :: ds => if d = c then ds else cs
  | [] => []

/-- What stands before the first character of a sort, and what follows that character. -/
def cut (isMark : Char → Bool) (cs : List Char) : List Char × Option (List Char) :=
  match cs.dropWhile (!isMark ·) with
  | [] => (cs, none)
  | _ :: after => (cs.takeWhile (!isMark ·), some after)

/-- A repeating part up to its closing parenthesis, which must be the last character. -/
def closed? (cs : List Char) : Option (List Char) :=
  if cs.getLast? == some ')' then some cs.dropLast else none

/-- The digits after a point, with a repeating part in parentheses. -/
def readFraction? (cs : List Char) : Option (List Char × List Char) :=
  match cut (· == '(') cs with
  | (fraction, none) => some (fraction, [])
  | (fraction, some after) => (closed? after).map (fraction, ·)

/-- An exponent without a plus sign, if it has digits after its sign. -/
def readExponent? (cs : List Char) : Option (List Char) :=
  let exponent := dropLeading '+' cs
  let digits := dropLeading '-' exponent
  if !digits.isEmpty && areDigits digits then some exponent else none

/-- The parts of a mantissa without its sign, if some of them has a digit. -/
def readMantissa? (negative : Bool) (cs : List Char) : Option Numeral := do
  let (whole, after) := cut (· == '.') cs
  let (fraction, repeating) ← readFraction? (after.getD [])
  if areDigits whole && areDigits fraction && areDigits repeating &&
      !(whole.isEmpty && fraction.isEmpty && repeating.isEmpty) then
    some { negative, whole, fraction, repeating, exponent := [] }
  else none

/-- The parts of the text of a number. -/
def read? (text : String) : Option Numeral := do
  let cs := text.toList
  let negative := cs.head? == some '-'
  let unsigned := if negative then cs.tail else dropLeading '+' cs
  let (mantissa, exponent) := cut (fun c => c == 'e' || c == 'E') unsigned
  let n ← readMantissa? negative mantissa
  match exponent with
  | none => some n
  | some cs => (readExponent? cs).map fun exponent => { n with exponent }

/-- Digits in groups of a size from the left; the last group may be shorter. -/
def chunks (size : Nat) (ds : List Char) : List (List Char) :=
  if _h : size = 0 ∨ ds.length ≤ size then [ds]
  else ds.take size :: chunks size (ds.drop size)
termination_by ds.length
decreasing_by
  simp only [List.length_drop]
  omega

/-- Digits in groups of a size from the right; the first group may be shorter. -/
def chunksFromRight (size : Nat) (ds : List Char) : List (List Char) :=
  if size = 0 ∨ ds.length ≤ size then [ds]
  else
    let first := if ds.length % size = 0 then size else ds.length % size
    ds.take first :: chunks size (ds.drop first)

/-- The groups of some digits with the format's separator between them. -/
def groupDigits (ds : List Char) (format : NumberFormat) (fromLeft : Bool) : String :=
  let groups :=
    if fromLeft then chunks format.digitGroup ds else chunksFromRight format.digitGroup ds
  format.groupSeparator.intercalate (groups.map String.ofList)

/-- The whole part without needless zeros. -/
def wholeMarkup (n : Numeral) (format : NumberFormat) : String :=
  let ds := n.whole.dropWhile (· == '0')
  groupDigits (if ds.isEmpty then ['0'] else ds) format false

/-- The repeating part in the format's style. -/
def repeatingMarkup (n : Numeral) (format : NumberFormat) : String :=
  let ds := String.ofList n.repeating
  if n.repeating.isEmpty then ""
  else
    match format.repeatingDecimal with
    | .overline => "\\overline\x7b" ++ ds ++ "\x7d"
    | .parentheses => "(" ++ ds ++ ")"
    | .none => ds

/-- The mantissa: the sign, the whole part, and what stands after the point if anything does. -/
def mantissaMarkup (n : Numeral) (format : NumberFormat) : String :=
  let sign := if n.negative then "-" else ""
  let fraction :=
    if n.fraction.isEmpty && n.repeating.isEmpty then ""
    else format.decimalMarker ++ groupDigits n.fraction format true ++ n.repeatingMarkup format
  sign ++ n.wholeMarkup format ++ fraction

/-- Puts an exponent behind a mantissa. A mantissa of one is left out before a power of ten. -/
def withExponent (mantissa exponent : String) (style : ExponentStyle) : String :=
  match style with
  | .power =>
    if mantissa = "1" then "10^\x7b" ++ exponent ++ "\x7d"
    else if mantissa = "-1" then "-10^\x7b" ++ exponent ++ "\x7d"
    else mantissa ++ "\\cdot10^\x7b" ++ exponent ++ "\x7d"
  | .e => mantissa ++ "\\mathrm\x7be\x7d" ++ exponent

/-- The markup of a numeral. -/
def write (n : Numeral) (format : NumberFormat) : String :=
  let mantissa := n.mantissaMarkup format
  if n.exponent.isEmpty then mantissa
  else withExponent mantissa (String.ofList n.exponent) format.exponentStyle

/-- The markup of the text of a number. -/
def render (text : String) (format : NumberFormat) : Except Warning String :=
  if text = "NaN" then .ok format.notANumber
  else if text = "Infinity" ∨ text = "+Infinity" then .ok format.positiveInfinity
  else if text = "-Infinity" then .ok format.negativeInfinity
  else
    match read? text with
    | some n => .ok (n.write format)
    | none => .error (.unserializable ("number `" ++ text ++ "`"))

end Numeral
end MathMarkup
