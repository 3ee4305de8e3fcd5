import MathMarkup.Expr
import MathMarkup.Token.Spelling
import MathMarkup.Warning

/-!
# The token buffer of the parser

A parser holds its tokens on both sides of a cursor: those behind it, the nearest first, and those
ahead. Moving the cursor shifts tokens between the sides and loses none. Beside the buffer there
are the warnings reported so far, how deeply the parse is nested, and a mark that the input nests
too deeply to go on.

Spacing commands carry no meaning, so they never get into the buffer, except for thin spaces
between two numbers, which group the digits of one numeral.
-/

namespace MathMarkup

/-- The state of a parse. -/
structure Parser where
  /-- The consumed tokens, the last one first. -/
  behind : List Token
  ahead : List Token
  warnings : List Warning
  /-- How many steps the parse is inside of. -/
  depth : Nat
  /-- The largest depth so far. -/
  deepest : Nat
  /-- Whether the input nests too deeply to go on. -/
  tooDeep : Bool
  deriving DecidableEq, Repr

/-- A step of a parse. -/
abbrev Reading := StateM Parser

namespace Parser

/-- Commands and characters that only space the markup out. -/
def spacing : List String :=
  ["\\,", "\\;", "\\:", "\\!", "\\ ", "\\quad", "\\qquad", "\\enspace", "~"]

/-- The thin space that may group digits. -/
def thinSpace : String := "\\,"

/-- Whether a token is a number. -/
def isNumber (t : Option Token) : Bool :=
  match t with
  | some t => t.kind == .number
  | none => false

/-- Drops spacing, given the token kept last. -/
def dropSpacing (last : Option Token) : List Token → List Token
  | [] => []
  | t :: ts =>
    if spacing.contains t.raw &&
        !(t.raw == thinSpace && isNumber last && isNumber ts.head?) then dropSpacing last ts
    else t :: dropSpacing (some t) ts

/-- A parser at the start of some tokens. -/
def ofTokens (tokens : List Token) : Parser :=
  { behind := []
    ahead := dropSpacing none tokens
    warnings := []
    depth := 0
    deepest := 0
    tooDeep := false }

/-- All tokens of the buffer. -/
def tokens (p : Parser) : List Token :=
  p.behind.reverse ++ p.ahead

/-- Where the cursor is: how many tokens are behind it. -/
def index (p : Parser) : Nat :=
  p.behind.length

/-- How far the cursor can still move. Splitting a number makes the buffer longer but not heavier,
so the cursor is never beyond the weight of the buffer. -/
def slack (p : Parser) : Nat :=
  tokensWeight p.tokens - p.index

/-- Moves the cursor some tokens on, up to the end. -/
def advance (n : Nat) (p : Parser) : Parser :=
  { p with behind := (p.ahead.take n).reverse ++ p.behind, ahead := p.ahead.drop n }

/-- Moves the cursor some tokens back, up to the start. -/
def retreat (n : Nat) (p : Parser) : Parser :=
  { p with behind := p.behind.drop n, ahead := (p.behind.take n).reverse ++ p.ahead }

/-- Moves the cursor to a position, at most to the end. -/
def seek (i : Nat) (p : Parser) : Parser :=
  if i ≤ p.index then p.retreat (p.index - i) else p.advance (i - p.index)

/-- Moves the cursor to the end. -/
def seekEnd (p : Parser) : Parser :=
  p.advance p.ahead.length

/-- One level deeper. -/
def enter (p : Parser) : Parser :=
  { p with depth := p.depth + 1, deepest := max p.deepest (p.depth + 1) }

/-- Back from one level deeper. -/
def leave (p : Parser) : Parser :=
  { p with depth := p.depth - 1 }

/-- The markup between two positions. -/
def markup (p : Parser) (start stop : Nat) : String :=
  Token.spell ((p.tokens.take stop).drop start)

/-- The markup from a position up to the cursor. -/
def markupSince (p : Parser) (start : Nat) : String :=
  Token.spell (p.behind.take (p.index - start)).reverse

/-- An error node that covers the tokens from a position up to the cursor. -/
def errorSince (p : Parser) (code : ErrorCode) (arg : Option String) (start : Nat) : Expr :=
  Expr.error code arg (p.markupSince start)

theorem tokens_advance (n : Nat) (p : Parser) : (p.advance n).tokens = p.tokens := by
  simp only [tokens, advance, List.reverse_append, List.reverse_reverse, List.append_assoc,
    List.take_append_drop]

theorem tokens_retreat (n : Nat) (p : Parser) : (p.retreat n).tokens = p.tokens := by
  simp only [tokens, retreat, ← List.append_assoc, ← List.reverse_append,
    List.take_append_drop]

theorem tokens_seek (i : Nat) (p : Parser) : (p.seek i).tokens = p.tokens := by
  unfold seek
  split
  · exact tokens_retreat _ p
  · exact tokens_advance _ p

end Parser

namespace Reading

/-- Where the cursor is. -/
def index : Reading Nat := do
  return (← get).index

/-- The token at the cursor. -/
def peek : Reading (Option Token) := do
  return (← get).ahead.head?

/-- Whether every token is consumed. -/
def atEnd : Reading Bool := do
  return (← get).ahead.isEmpty

/-- The raw texts from the cursor on. -/
def upcoming : Reading (List String) := do
  return Token.raws (← get).ahead

/-- Moves the cursor to a position. -/
def seek (i : Nat) : Reading Unit :=
  modify (Parser.seek i)

/-- Moves the cursor some tokens on. -/
def advance (n : Nat) : Reading Unit :=
  modify (Parser.advance n)

/-- Consumes the token at the cursor. -/
def next : Reading (Option Token) := do
  let t ← peek
  advance 1
  return t

/-- Consumes the tokens at the cursor if they have some raw texts. -/
def matchTokens (raws : List String) : Reading Bool := do
  if Token.raws ((← get).ahead.take raws.length) = raws then
    advance raws.length
    return true
  else return false

/-- Consumes the token at the cursor if it has a raw text. -/
def matchToken (raw : String) : Reading Bool := do
  match ← peek with
  | some t =>
    if t.raw = raw then
      advance 1
      return true
    else return false
  | none => return false

/-- Consumes a closing brace. -/
def matchCloseGroup : Reading Bool := do
  match ← peek with
  | some t =>
    if t.kind = .closeGroup then
      advance 1
      return true
    else return false
  | none => return false

/-- Reports a warning. -/
def warn (w : Warning) : Reading Unit :=
  modify fun p => { p with warnings := p.warnings ++ [w] }

/-- Takes the warnings reported so far. -/
def takeWarnings : Reading (List Warning) := do
  let warnings := (← get).warnings
  modify fun p => { p with warnings := [] }
  return warnings

/-- An error node that covers the tokens from a position up to the cursor. -/
def error (code : ErrorCode) (arg : Option String) (start : Nat) : Reading Expr := do
  return (← get).errorSince code arg start

/-- Takes a step that may decline, and goes back to where it began if it does. -/
def rewinding {α : Type} (step : Reading (Option α)) : Reading (Option α) := do
  let start ← index
  match ← step with
  | some a => return some a
  | none =>
    seek start
    return none

/-- The first of some alternatives that reads something. -/
def firstOf {α β : Type} (alternative : α → Reading (Option β)) :
    List α → Reading (Option β)
  | [] => return none
  | a :: as => do
    match ← alternative a with
    | some b => return some b
    | none => firstOf alternative as

/-- Repeats a round until it says that it was the last one. A round that leaves the cursor where it
was, or behind it, is the last one too: that only happens where a custom routine goes back behind
where it is called, and the loop might never end there. -/
def loop {α : Type} (round : α → Reading (α × Bool)) (a : α) : Reading α := fun p =>
  match round a p with
  | ((b, false), q) => (b, q)
  | ((b, true), q) => if q.slack < p.slack then loop round b q else (b, q)
termination_by p => p.slack

end Reading
end MathMarkup
