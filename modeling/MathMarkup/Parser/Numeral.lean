import MathMarkup.Parser.Buffer

/-!
# Numerals in a token list

A numeral may span several tokens: digits in groups with thin spaces between them, and a repeating
part under an overline. Since the lexer leaves a trailing point alone, the point before a repeating
part may be a token of its own.
-/

namespace MathMarkup.Parser

/-- The digit groups at the start of some tokens, and how many tokens they take. A thin space after
a group belongs to the numeral. -/
def digitGroups : List Token → List String × Nat
  | [] => ([], 0)
  | t :: ts =>
    if t.kind = .number then
      match ts with
      | sep :: rest =>
        if sep.raw = thinSpace then
          let r := digitGroups rest
          (t.raw :: r.1, r.2 + 2)
        else ([t.raw], 1)
      | [] => ([t.raw], 1)
    else ([], 0)

/-- The digits of a repeating part at the start of some tokens. -/
def overlined? : List Token → Option String
  | line :: left :: digits :: right :: _ =>
    if line.raw = "\\overline" ∧ left.raw = "\x7b" ∧ digits.kind = .number ∧
        right.kind = .closeGroup ∧ digits.raw.toList.all Char.isDigit then some digits.raw
    else none
  | _ => none

/-- The digits of a repeating part, and how many tokens it takes with the point before it, which it
needs unless the digits before have one. -/
def repeatingPart? (pointed : Bool) (tokens : List Token) : Option (String × Nat) :=
  if pointed then (overlined? tokens).map (·, 4)
  else
    match tokens with
    | point :: rest => if point.raw = "." then (overlined? rest).map (·, 5) else none
    | [] => none

/-- Puts a zero before a leading point. -/
def withLeadingZero (text : String) : String :=
  if text.toList.head? == some '.' then "0" ++ text else text

/-- Reads a numeral from its first number token on. -/
def numeral : Reading Expr := do
  let (groups, length) := digitGroups (← get).ahead
  Reading.advance length
  let text := withLeadingZero (String.join groups)
  let pointed := text.toList.contains '.'
  match repeatingPart? pointed (← get).ahead with
  | some (digits, length) =>
    Reading.advance length
    return .number ((if pointed then text else text ++ ".") ++ "(" ++ digits ++ ")")
  | none => return .number text

end MathMarkup.Parser
