import MathMarkup.Lexicon.Entry

/-!
# Structural entries

Sequences, delimiters, lists, subscripts, error nodes and matrices. Parentheses only group, unless
they hold nothing or several expressions; a comma collects its operands into one flat sequence.
-/

namespace MathMarkup.Lexicon

/-- Infix operators that collect repeated operands under one head: a left operand with the same
head is extended instead of nested. -/
def collecting (head : String) : ParseHandler := fun lhs precedence => do
  let rhs ← (ParseRoutine.expression precedence).orMissing
  let operands := match lhs with
    | some lhs => if lhs.isApply head then lhs.operands else [lhs]
    | none => []
  return some (.apply head (operands ++ [rhs]))

namespace Structure

/-- How tightly subscripts bind. -/
def subscriptPrecedence : Precedence := 720

/-- Parentheses around one expression only group it. -/
def parseGroup : ParseHandler := fun body _ =>
  return some (match body with
    | some e => if e.isApply "Sequence" then .apply "Delimiter" (Expr.splat body) else e
    | none => .apply "Delimiter" [])

/-- Operands between parentheses. -/
def renderDelimiter : RenderHandler := fun e level => do
  let style := (← RenderRoutine.options).groupStyle e level
  return style.wrap (← RenderRoutine.operands e level)

/-- Operands separated by commas. -/
def renderSequence : RenderHandler := fun e level => do
  let operands ← e.operands.mapM fun o => RenderRoutine.wrap o 21 (level + 1)
  return ", ".intercalate operands

/-- A subscript is the argument after the mark. -/
def parseSubscript : ParseHandler := fun lhs _ => do
  let sub ← ParseRoutine.argument.orMissing
  return lhs.map fun base => .apply "Subscript" [base, sub]

/-- A base and its subscript in braces. -/
def renderSubscript : RenderHandler := fun e level => do
  let base ← match e.operand? 1 with
    | some base => RenderRoutine.wrapBase base subscriptPrecedence (level + 1)
    | none => RenderRoutine.missing
  let sub ← match e.operand? 2 with
    | some sub => RenderRoutine.render sub (level + 1)
    | none => RenderRoutine.missing
  return base ++ "_\x7b" ++ sub ++ "\x7d"

/-- The markup that an error node covers. -/
def errorMarkup? (e : Expr) : Option String := do
  let context ← e.operands.find? (·.isApply "Latex")
  (← context.operand? 1).string?

/-- An error node is the markup it covers in red, or the placeholder for a missing operand. -/
def renderError : RenderHandler := fun e _ => do
  if (e.operand? 1).bind Expr.string? = some "missing" then RenderRoutine.missing
  else
    match errorMarkup? e with
    | some markup => return "\\textcolor\x7bred\x7d\x7b" ++ markup ++ "\x7d"
    | none => RenderRoutine.missing

/-- The entries. -/
def entries : List Entry := [
  ((Entry.infixOp "," 20).named "Sequence").parseWith (collecting "Sequence")
    |>.renderWith renderSequence,
  ((Entry.matchfix "(" ")").named "Delimiter").parseWith parseGroup
    |>.renderWith renderDelimiter,
  (Entry.matchfix "\\left(" "\\right)").parseWith parseGroup,
  (Entry.matchfix "\\Bigl(" "\\Bigr)").parseWith parseGroup,
  (Entry.matchfix "[" "]").parseAs "List",
  (Entry.matchfix "\\lbrack" "\\rbrack").named "List",
  (Entry.matchfix "\\vert" "\\vert").parseAs "Abs",
  (Entry.matchfix "\\lvert" "\\rvert").parseAs "Abs",
  (Entry.matchfix "|" "|").named "Abs",
  ((Entry.infixOp "_" subscriptPrecedence).named "Subscript").parseWith parseSubscript
    |>.renderWith renderSubscript,
  ((Entry.untriggered .function).named "Error").renderWith renderError,
  (Entry.environment "matrix").parseAs "Matrix",
  (Entry.environment "bmatrix").parseAs "Matrix",
  (Entry.environment "pmatrix").named "Matrix"]

end Structure
end MathMarkup.Lexicon
