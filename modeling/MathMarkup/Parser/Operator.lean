import MathMarkup.Lexicon.Index
import MathMarkup.Parser.Group

/-!
# Infix and postfix operators

After an expression the parser looks for an operator that takes it as its left operand, and goes
on as long as it finds one that binds tightly enough. Which operator it is, is settled by the
longest trigger: if that one binds too loosely, no shorter one is tried. An operand that follows
without an operator is multiplied.
-/

namespace MathMarkup.Parser

/-- Puts a candidate ahead of those whose trigger is not longer. -/
def insertCandidate (c : Nat × IndexedEntry) :
    List (Nat × IndexedEntry) → List (Nat × IndexedEntry)
  | [] => [c]
  | d :: ds => if d.1 ≤ c.1 then c :: d :: ds else d :: insertCandidate c ds

/-- The infix and postfix entries whose trigger comes next, longer triggers first and postfix ahead
of infix where the triggers are as long. -/
def operatorCandidates (ix : Index) (upcoming : List String) : List (Nat × IndexedEntry) :=
  (ix.lookup .postfixOp upcoming).foldr insertCandidate (ix.lookup .infixOp upcoming)

/-- An infix entry without a routine: the right operand follows, or is missing. -/
def infixApplication (inner : Nested) (entry : IndexedEntry) (lhs : Expr) (p : Precedence) :
    Reading Expr := do
  let rhs ← inner.expression p
  return .apply entry.head [lhs, rhs.getD Expr.missing]

/-- A postfix entry without a routine: a sequence gives its operands. -/
def postfixApplication (entry : IndexedEntry) (lhs : Expr) : Reading Expr := do
  let operands := Expr.splat (some lhs)
  if operands.length ≠ 1 then
    Reading.warn (.operandCount entry.head 1 operands.length)
  return .apply entry.head operands

/-- How tightly the right operand of an infix operator must bind. -/
def rightPrecedence (associativity : Associativity) (p : Precedence) : Precedence :=
  match associativity with
  | .left => p.tighter
  | .right => p

/-- Applies an operator whose trigger was consumed to its left operand. -/
def applyOperator (inner : Nested) (entry : IndexedEntry) (lhs : Expr) (p : Precedence) :
    Reading (Option Expr) :=
  match entry.role, entry.parse with
  | .postfixOp _, some handler => runHandler inner handler (some lhs) p
  | .postfixOp _, none => do return some (← postfixApplication entry lhs)
  | .infixOp _ a, some handler => runHandler inner handler (some lhs) (rightPrecedence a p)
  | .infixOp _ a, none => do
    return some (← infixApplication inner entry lhs (rightPrecedence a p))
  | _, _ => return none

/-- Tries one candidate, given how tightly it has to bind. -/
def tryOperator (inner : Nested) (min : Precedence) (lhs : Expr)
    (candidate : Nat × IndexedEntry) : Reading (Option Expr) :=
  match candidate.2.precedence? with
  | some p =>
    if min ≤ p then
      Reading.rewinding do
        Reading.advance candidate.1
        applyOperator inner candidate.2 lhs p
    else return none
  | none => return none

/-- The operands of a product that goes on. -/
def factors (lhs : Expr) : List Expr :=
  match lhs with
  | .apply head operands => if head = "Multiply" then operands else [lhs]
  | _ => [lhs]

/-- Multiplies by an operand that follows without an operator. It binds like the product of the
lexicon and needs one. -/
def juxtapose (ix : Index) (inner : Nested) (min : Precedence) (lhs : Expr) :
    Reading (Option Expr) := do
  match (ix.byName? "Multiply").bind IndexedEntry.precedence? with
  | none => return none
  | some p =>
    if p < min || (← Reading.atEnd) then return none
    else
      Reading.rewinding do
        match ← inner.expression p.tighter with
        | some rhs => return some (.apply "Multiply" (factors lhs ++ [rhs]))
        | none => return none

/-- Whether a candidate binds tightly enough. -/
def admits (min : Precedence) (candidate : Nat × IndexedEntry) : Bool :=
  match candidate.2.precedence? with
  | some p => min ≤ p
  | none => false

/-- One operator after an expression. -/
def suffix (ix : Index) (inner : Nested) (min : Precedence) (lhs : Expr) :
    Reading (Option Expr) := do
  match operatorCandidates ix (← Reading.upcoming) with
  | [] => juxtapose ix inner min lhs
  | top :: others =>
    if admits min top then Reading.firstOf (tryOperator inner min lhs) (top :: others)
    else return none

/-- Looks for one more operator, and says whether there was one. -/
def suffixRound (ix : Index) (inner : Nested) (min : Precedence) (lhs : Expr) :
    Reading (Expr × Bool) := do
  match ← suffix ix inner min lhs with
  | some e => return (e, true)
  | none => return (lhs, false)

/-- Operators after an expression, as long as there is one. -/
def suffixes (ix : Index) (inner : Nested) (min : Precedence) (lhs : Expr) : Reading Expr :=
  Reading.loop (suffixRound ix inner min) lhs

end MathMarkup.Parser
