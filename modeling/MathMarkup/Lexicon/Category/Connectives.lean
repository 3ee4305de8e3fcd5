import MathMarkup.Lexicon.Category.Structure

/-!
# Logical connectives and constants

Conjunction, disjunction, negation, implication and equivalence, and the truth values. Conjunction
and disjunction collect repeated operands; implication and equivalence group on the right. The
logic style decides how a connective is spelled.
-/

namespace MathMarkup.Lexicon.Connectives

/-- The spellings of a connective in the logic styles. -/
structure Spellings where
  boolean : String
  word : String
  uppercase : String
  punctuation : String

/-- The spelling in a style. -/
def Spellings.get (s : Spellings) : LogicStyle → String
  | .boolean => s.boolean
  | .word => s.word
  | .uppercaseWord => s.uppercase
  | .punctuation => s.punctuation

/-- The spellings of conjunction. -/
def andSpellings : Spellings :=
  ⟨"\\land", "\\;\\operatorname\x7band\x7d\\;", "\\;\\operatorname\x7bAND\x7d\\;", ","⟩

/-- The spellings of disjunction. -/
def orSpellings : Spellings :=
  ⟨"\\lor", "\\;\\operatorname\x7bor\x7d\\;", "\\;\\operatorname\x7bOR\x7d\\;", ";"⟩

/-- The spellings of negation. -/
def notSpellings : Spellings :=
  ⟨"\\lnot", "\\operatorname\x7bnot\x7d\\;", "\\operatorname\x7bNOT\x7d\\;", "!"⟩

/-- How tightly conjunctions bind. -/
def andPrecedence : Precedence := 235

/-- How tightly disjunctions bind. -/
def orPrecedence : Precedence := 230

/-- How tightly negations bind. -/
def notPrecedence : Precedence := 880

/-- Puts a connective behind what is rendered so far, if there is anything, and then the next
operand. -/
def joinOperand (connective : String) (rendered operand : String) : String :=
  if rendered.isEmpty then operand else join [rendered, connective, operand]

/-- Operands with a connective between them. The first may bind as loosely as the connective, the
others must bind tighter. -/
def renderConnective (spellings : Spellings) (precedence : Precedence) : RenderHandler :=
  fun e level => do
    let connective := spellings.get ((← RenderRoutine.options).logicStyle e level)
    let operands ←
      match e.operands with
      | [] => pure []
      | first :: rest => do
        let first ← RenderRoutine.wrap first precedence (level + 1)
        let rest ← rest.mapM fun o => RenderRoutine.wrap o precedence.tighter (level + 1)
        pure (first :: rest)
    return operands.foldl (joinOperand connective) ""

/-- A negation sign before its operand. -/
def renderNot : RenderHandler := fun e level => do
  let sign := notSpellings.get ((← RenderRoutine.options).logicStyle e level)
  match e.operands with
  | [operand] =>
    return join [sign, ← RenderRoutine.wrap operand notPrecedence.tighter (level + 1)]
  | operands => throw (.operandCount "Not" 1 operands.length)

/-- The entries. -/
def entries : List Entry := [
  (Entry.infixOp "\\wedge" andPrecedence).parseWith (collecting "And"),
  ((Entry.infixOp "\\land" andPrecedence).named "And").parseWith (collecting "And")
    |>.renderWith (renderConnective andSpellings andPrecedence),
  (Entry.infixOp "\\vee" orPrecedence).parseWith (collecting "Or"),
  ((Entry.infixOp "\\lor" orPrecedence).named "Or").parseWith (collecting "Or")
    |>.renderWith (renderConnective orSpellings orPrecedence),
  (Entry.prefixOp "\\neg" notPrecedence).parseAs "Not",
  ((Entry.prefixOp "\\lnot" notPrecedence).named "Not").renderWith renderNot,
  ((Entry.infixOp "\\Rightarrow" 220).parseAs "Implies").right,
  ((Entry.infixOp "\\implies" 220).named "Implies").right,
  ((Entry.infixOp "\\Leftrightarrow" 219).parseAs "Equivalent").right,
  ((Entry.infixOp "\\iff" 219).named "Equivalent").right,
  (Entry.identifier "\\top").parseAs "True",
  (Entry.identifier "\\mathrm\x7bTrue\x7d").named "True",
  (Entry.identifier "\\bot").parseAs "False",
  (Entry.identifier "\\mathrm\x7bFalse\x7d").named "False"]

end MathMarkup.Lexicon.Connectives
