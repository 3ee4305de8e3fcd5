import MathMarkup.Lexicon.Request
import MathMarkup.Parser.Buffer

/-!
# Groups, arguments and requests

What the parser reads between delimiters, given readers for the expressions inside (`Nested`).
Braced groups and tables always read something: what does not belong where it stands becomes an
error node. Arguments in brackets and parentheses read as nothing unless they are complete.

`Parser.answer` is how the requests of parse routines are answered, with the same functions.
-/

namespace MathMarkup

/-- The readers for expressions one level deeper. -/
structure Nested where
  /-- An expression whose operators bind at least as tightly as a precedence. -/
  expression : Precedence → Reading (Option Expr)
  /-- An expression without infix and postfix operators. -/
  primary : Precedence → Reading (Option Expr)

namespace Parser

/-- A sequence that ends in an error node; later errors are added to it. -/
def isErroredSequence (e : Expr) : Bool :=
  e.isApply "Sequence" &&
    match e.operands.getLast? with
    | some last => last.isApply "Error"
    | none => false

/-- Adds an operand to an application; an annotated one stays as it is. -/
def pushOperand (e operand : Expr) : Expr :=
  match e with
  | .apply head operands => .apply head (operands ++ [operand])
  | e => e

/-- Puts an error node behind what was read before it. -/
def appendError (lhs : Option Expr) (error : Expr) : Expr :=
  match lhs with
  | some lhs => if isErroredSequence lhs then pushOperand lhs error else .sequence [lhs, error]
  | none => error

/-- How many tokens there are up to the brace that closes `depth + 1` open groups, that brace
included, and whether there is one. -/
def groupSpan (depth : Nat) : List Token → Nat × Bool
  | [] => (0, false)
  | t :: ts =>
    match t.kind, depth with
    | .closeGroup, 0 => (1, true)
    | .closeGroup, d + 1 =>
      let r := groupSpan d ts
      (r.1 + 1, r.2)
    | .openGroup, d =>
      let r := groupSpan (d + 1) ts
      (r.1 + 1, r.2)
    | _, d =>
      let r := groupSpan d ts
      (r.1 + 1, r.2)

/-- Skips to the end of a group whose body ended too early, and puts an error node behind the
body: for the tokens skipped if the group is closed, else for the whole group. -/
def skipToCloseGroup (start : Nat) (body : Option Expr) : Reading Expr := do
  let p ← get
  let (length, closed) := groupSpan 0 p.ahead
  Reading.advance length
  if closed then
    let skipped := Token.spell (p.ahead.take (length - 1))
    return appendError body (Expr.error .unexpectedToken none skipped)
  else return appendError body (← Reading.error .expectedClosingDelimiter none start)

/-- Reads a group from its opening brace on. An empty group is an empty sequence. -/
def braceGroup (inner : Nested) : Reading Expr := do
  let start ← Reading.index
  Reading.advance 1
  if ← Reading.matchCloseGroup then return .sequence []
  else
    let body ← inner.expression .loosest
    if ← Reading.matchCloseGroup then return body.getD (.sequence [])
    else skipToCloseGroup start body

/-- Reads a group if the cursor is at an opening brace. -/
def group (inner : Nested) : Reading (Option Expr) := do
  match ← Reading.peek with
  | some t => if t.kind = .openGroup then return some (← braceGroup inner) else return none
  | none => return none

/-- The first digit of an integer with several digits, and the others. -/
def splitDigit? (t : Token) : Option (String × String) :=
  if t.kind = .number ∧ t.raw.toList.all Char.isDigit then
    match t.raw.toList with
    | first :: second :: rest =>
      some (String.ofList [first], String.ofList (second :: rest))
    | _ => none
  else none

/-- Replaces the token at the cursor by two numbers and consumes the first. -/
def takeDigit (first rest : String) : Reading Unit :=
  modify fun p =>
    { p with
      behind := ⟨first, .number⟩ :: p.behind
      ahead := ⟨rest, .number⟩ :: p.ahead.drop 1 }

/-- Reads the argument of a command: a group, a single digit of an integer, or a single primary
expression. -/
def argument (inner : Nested) : Reading (Option Expr) := do
  match ← Reading.peek with
  | none => return none
  | some t =>
    if t.kind = .openGroup then return some (← braceGroup inner)
    else
      match splitDigit? t with
      | some (first, rest) =>
        takeDigit first rest
        return some (.number first)
      | none => inner.primary .tightest

/-- Reads an argument in square brackets, or nothing unless the bracket is closed. -/
def optionalArgument (inner : Nested) : Reading (Option Expr) := do
  let start ← Reading.index
  if ← Reading.matchToken "[" then
    let body ← inner.expression .loosest
    if ← Reading.matchToken "]" then return body
    else
      Reading.seek start
      return none
  else return none

/-- Reads arguments in parentheses, or nothing unless the parenthesis is closed. -/
def argumentList (inner : Nested) : Reading (Option (List Expr)) :=
  Reading.rewinding do
    if ← Reading.matchToken "(" then
      if ← Reading.matchToken ")" then return some []
      else
        let body ← inner.expression .loosest
        if ← Reading.matchToken ")" then return some (Expr.splat body) else return none
    else return none

/-- Answers the requests of parse routines. -/
def answer (inner : Nested) : (q : ParseRequest) → Reading q.Response
  | .index => Reading.index
  | .setIndex i => Reading.seek i
  | .atEnd => Reading.atEnd
  | .peek => Reading.peek
  | .next => Reading.next
  | .matchToken raw => Reading.matchToken raw
  | .matchTokens raws => Reading.matchTokens raws
  | .markup start stop => do return (← get).markup start stop
  | .group => group inner
  | .argument => argument inner
  | .optionalArgument => optionalArgument inner
  | .argumentList => argumentList inner
  | .expression min => inner.expression min
  | .error code arg start => Reading.error code arg start
  | .warn w => Reading.warn w
  | .takeWarnings => Reading.takeWarnings

/-- Runs the parse routine of an entry. -/
def runHandler (inner : Nested) (handler : ParseHandler) (lhs : Option Expr) (p : Precedence) :
    Reading (Option Expr) :=
  (handler lhs p).run (answer inner)

end Parser
end MathMarkup
