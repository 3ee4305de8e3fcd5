import MathMarkup.Decimal.Scaling
import MathMarkup.Json.Basic

/-!
# Reading JSON

Text is first cut into lexemes, and these drive a machine with a stack of the arrays and objects
that are still open. Both passes only ever go forward, so reading ends; what is not JSON reads as
nothing.

A number that is no integer of 64 bits is read in two steps: its digits give a significand of at
most 64 bits, and the double nearest to that is scaled by the power of ten that remains. A long
number can therefore come out one double beside the nearest one.
-/

namespace MathMarkup.Json

/-- A piece of JSON text. -/
inductive Lexeme where
  | openObject
  | closeObject
  | openArray
  | closeArray
  | comma
  | colon
  | string (value : String)
  /-- A number, a truth value or null. -/
  | atom (value : Json)

/-- The value of a hexadecimal digit. -/
def hexDigit? (c : Char) : Option Nat :=
  if c.isDigit then some (c.toNat - '0'.toNat)
  else if 'a' ≤ c ∧ c ≤ 'f' then some (c.toNat - 'a'.toNat + 10)
  else if 'A' ≤ c ∧ c ≤ 'F' then some (c.toNat - 'A'.toNat + 10)
  else none

/-- The number that four hexadecimal digits write, and the rest. -/
def hexQuad? : List Char → Option (Nat × List Char)
  | a :: b :: c :: d :: rest => do
    let a ← hexDigit? a
    let b ← hexDigit? b
    let c ← hexDigit? c
    let d ← hexDigit? d
    return (((a * 16 + b) * 16 + c) * 16 + d, rest)
  | _ => none

/-- The character that `\u` escapes stand for, and the rest. A high surrogate needs the escape of a
low one after it. -/
def unicodeChar? (cs : List Char) : Option (Char × List Char) := do
  let (n, rest) ← hexQuad? cs
  if 0xd800 ≤ n ∧ n < 0xdc00 then
    match rest with
    | '\\' :: 'u' :: rest =>
      let (m, rest) ← hexQuad? rest
      if 0xdc00 ≤ m ∧ m < 0xe000 then
        return (Char.ofNat (0x10000 + (n - 0xd800) * 0x400 + (m - 0xdc00)), rest)
      else none
    | _ => none
  else if 0xdc00 ≤ n ∧ n < 0xe000 then none
  else return (Char.ofNat n, rest)

/-- The character of a short escape. -/
def shortEscape? : Char → Option Char
  | '"' => some '"'
  | '\\' => some '\\'
  | '/' => some '/'
  | 'b' => some '\x08'
  | 'f' => some '\x0c'
  | 'n' => some '\n'
  | 'r' => some '\r'
  | 't' => some '\t'
  | _ => none

/-- One character of a string, and the rest; control characters must be escaped. -/
def stringChar? : List Char → Option (Char × List Char)
  | '\\' :: 'u' :: rest => unicodeChar? rest
  | '\\' :: c :: rest => (shortEscape? c).map (·, rest)
  | '\\' :: [] => none
  | c :: rest => if c.toNat < 0x20 then none else some (c, rest)
  | [] => none

/-- The rest of a string after its opening quote, in reverse, and what follows it. -/
def readString? (read : List Char) (cs : List Char) : Option (List Char × List Char) :=
  if cs.head? == some '"' then some (read, cs.tail)
  else
    match stringChar? cs with
    | some (c, rest) =>
      if rest.length < cs.length then readString? (c :: read) rest else none
    | none => none
termination_by cs.length

/-- The exponent after a mantissa: an `e`, an optional sign and digits. -/
def exponent? : List Char → Option Int
  | [] => some 0
  | e :: cs =>
    if e == 'e' || e == 'E' then
      let (negative, ds) := match cs with
        | '-' :: ds => (true, ds)
        | '+' :: ds => (false, ds)
        | ds => (false, ds)
      if !ds.isEmpty && ds.all Char.isDigit then
        some (if negative then -(digitsValue ds : Int) else digitsValue ds)
      else none
    else none

/-- The greatest significand of a number, that of 64 bits. -/
def greatestSignificand : Nat := 18446744073709551615

/-- A significand with digits appended while it fits 64 bits, and the number of digits that are left
over from the first that does not fit. -/
def appendDigits (significand : Nat) : List Char → Nat × Nat
  | [] => (significand, 0)
  | d :: ds =>
    let longer := significand * 10 + digitsValue [d]
    if longer ≤ greatestSignificand then appendDigits longer ds
    else (significand, ds.length + 1)

/-- The double that is read from the digits before and after the point and an exponent, unless it is
out of range. Digits left over before the point count towards the exponent only, and those left over
after it for nothing. -/
def double? (negative : Bool) (whole fraction : List Char) (e : Int) : Option Binary64 :=
  let (significand, beyond) := appendDigits 0 whole
  let (significand, dropped) := appendDigits significand fraction
  (Binary64.ofDecimal? negative significand 0).bind
    (·.scaleByTen? (e + beyond - fraction.length + dropped))

/-- The value of a number's text. -/
def number? (cs : List Char) : Option Json :=
  let (negative, cs) := match cs with
    | '-' :: rest => (true, rest)
    | _ => (false, cs)
  let whole := cs.takeWhile Char.isDigit
  let rest := cs.dropWhile Char.isDigit
  let (pointed, fraction, rest) := match rest with
    | '.' :: after => (true, after.takeWhile Char.isDigit, after.dropWhile Char.isDigit)
    | _ => (false, [], rest)
  let wellFormed := match whole with
    | [] => false
    | ['0'] => true
    | d :: _ => d != '0'
  if !wellFormed || (pointed && fraction.isEmpty) then none
  else
    let n := digitsValue whole
    let integer : Int := if negative then -(n : Int) else n
    if !pointed && rest.isEmpty && fitsInteger integer && !(negative && n == 0) then
      some (.int integer)
    else do
      let e ← exponent? rest
      let x ← double? negative whole fraction e
      return .real x

/-- The characters that the text of a number is made of. -/
def isNumberChar (c : Char) : Bool :=
  c.isDigit || c == '-' || c == '+' || c == '.' || c == 'e' || c == 'E'

/-- The blanks of JSON. -/
def isJsonBlank (c : Char) : Bool :=
  c == ' ' || c == '\t' || c == '\n' || c == '\r'

/-- One lexeme at the start of some text without leading blanks, and the rest. -/
def lexeme? (cs : List Char) : Option (Lexeme × List Char) :=
  match cs with
  | '{' :: rest => some (.openObject, rest)
  | '}' :: rest => some (.closeObject, rest)
  | '[' :: rest => some (.openArray, rest)
  | ']' :: rest => some (.closeArray, rest)
  | ',' :: rest => some (.comma, rest)
  | ':' :: rest => some (.colon, rest)
  | '"' :: rest => (readString? [] rest).map fun (s, rest) =>
      (.string (String.ofList s.reverse), rest)
  | 't' :: 'r' :: 'u' :: 'e' :: rest => some (.atom (.bool true), rest)
  | 'f' :: 'a' :: 'l' :: 's' :: 'e' :: rest => some (.atom (.bool false), rest)
  | 'n' :: 'u' :: 'l' :: 'l' :: rest => some (.atom .null, rest)
  | cs => (number? (cs.takeWhile isNumberChar)).map fun v =>
      (.atom v, cs.dropWhile isNumberChar)

/-- All lexemes of some text. -/
def lexemes? (cs : List Char) : Option (List Lexeme) :=
  match cs.dropWhile isJsonBlank with
  | [] => some []
  | c :: after =>
    match lexeme? (c :: after) with
    | some (l, rest) =>
      if rest.length < cs.length then (lexemes? rest).map (l :: ·) else none
    | none => none
termination_by cs.length

/-- An array or object that is still open, with what it holds so far, the newest first. -/
inductive Frame where
  | array (items : List Json)
  | object (fields : List (String × Json)) (key : String)

/-- What may come next. -/
inductive Expecting where
  | value
  | itemOrClose
  | fieldOrClose
  | field
  | colon
  /-- A value is complete. -/
  | complete (value : Json)

/-- One lexeme's effect on what is open. -/
def step? (s : Expecting × List Frame) (l : Lexeme) : Option (Expecting × List Frame) :=
  match s, l with
  | (.itemOrClose, .array _ :: fs), .closeArray => some (.complete (.arr []), fs)
  | (.fieldOrClose, .object _ _ :: fs), .closeObject => some (.complete (.obj []), fs)
  | (.value, fs), l | (.itemOrClose, fs), l =>
    match l with
    | .string v => some (.complete (.str v), fs)
    | .atom v => some (.complete v, fs)
    | .openArray => some (.itemOrClose, .array [] :: fs)
    | .openObject => some (.fieldOrClose, .object [] "" :: fs)
    | _ => none
  | (.fieldOrClose, .object done _ :: fs), .string key
  | (.field, .object done _ :: fs), .string key => some (.colon, .object done key :: fs)
  | (.colon, fs), .colon => some (.value, fs)
  | (.complete v, .array done :: fs), .comma => some (.value, .array (v :: done) :: fs)
  | (.complete v, .array done :: fs), .closeArray =>
    some (.complete (.arr (v :: done).reverse), fs)
  | (.complete v, .object done key :: fs), .comma =>
    some (.field, .object ((key, v) :: done) key :: fs)
  | (.complete v, .object done key :: fs), .closeObject =>
    some (.complete (Json.object ((key, v) :: done).reverse), fs)
  | _, _ => none

/-- The value that some text writes, if it is JSON. -/
def read? (text : String) : Option Json := do
  match ← (← lexemes? text.toList).foldlM step? (.value, []) with
  | (.complete v, []) => some v
  | _ => none

end MathMarkup.Json
