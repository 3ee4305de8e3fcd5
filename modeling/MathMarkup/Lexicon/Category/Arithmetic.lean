import MathMarkup.Lexicon.Category.Structure
import MathMarkup.Template

/-!
# Arithmetic and mappings

Sums, products, quotients, powers, roots and the factorial, and the arrows of mappings. A minus
sign before a numeral makes a negative number. How quotients, powers and roots are rendered is up
to the style options.
-/

namespace MathMarkup.Lexicon.Arithmetic

/-- How tightly sums bind. -/
def addPrecedence : Precedence := 275

/-- How tightly products bind. -/
def multiplyPrecedence : Precedence := 390

/-- How tightly powers bind. -/
def powerPrecedence : Precedence := 720

/-- The failure of a head with the wrong number of operands. -/
def wrongCount (e : Expr) (head : String) (expected : Nat) : Warning :=
  .operandCount head expected e.operands.length

/-- A numeral without a minus sign becomes a negative number, anything else a negation. -/
def negated : Expr → Expr
  | .number text =>
    if text.toList.head? == some '-' then .apply "Negate" [.number text]
    else .number ("-" ++ text)
  | e => .apply "Negate" [e]

/-- The operand of a minus sign. -/
def parseNegate : ParseHandler := fun _ precedence => do
  return some (negated (← (ParseRoutine.expression precedence).orMissing))

/-- Whether an expression is a numeral of digits only. -/
def isInteger (e : Expr) : Bool :=
  match e.number? with
  | some text => text.toList.all Char.isDigit
  | none => false

/-- Whether an expression is a quotient of integers. -/
def isNumericFraction (e : Expr) : Bool :=
  e.isApply "Divide" && e.operands.all isInteger

/-- A sum; an integer and a fraction after it are put together by the template for invisible
addition, if there is one. -/
def renderAdd : RenderHandler := fun e level => do
  let invisible := (← RenderRoutine.options).invisiblePlus
  match e.operands with
  | [] => return "0"
  | first :: rest =>
    let start ← RenderRoutine.wrap first addPrecedence (level + 1)
    let sum ← rest.foldlM (fun (acc : String × Expr) op => do
      let rhs ← RenderRoutine.wrap op addPrecedence.tighter (level + 1)
      if !invisible.isEmpty && isInteger acc.2 && isNumericFraction op then
        return (Template.fill invisible [acc.1, rhs], op)
      else return (acc.1 ++ "+" ++ rhs, op)) (start, first)
    return sum.1

/-- A product; a number and a symbol after it are put together by the template for invisible
multiplication, if there is one. -/
def renderMultiply : RenderHandler := fun e level => do
  let options ← RenderRoutine.options
  match e.operands with
  | [] => return "1"
  | first :: rest =>
    let start ← RenderRoutine.wrap first multiplyPrecedence (level + 1)
    let product ← rest.foldlM (fun (acc : String × Expr) op => do
      let rhs ← RenderRoutine.wrap op multiplyPrecedence.tighter (level + 1)
      if !options.invisibleMultiply.isEmpty && acc.2.number?.isSome && op.symbol?.isSome then
        return (Template.fill options.invisibleMultiply [acc.1, rhs], op)
      else return (join [acc.1, options.multiply, rhs], op)) (start, first)
    return product.1

/-- Numerator and denominator are the two arguments of the command. -/
def parseFraction : ParseHandler := fun _ _ => do
  let numerator ← ParseRoutine.argument.orMissing
  let denominator ← ParseRoutine.argument.orMissing
  return some (.apply "Divide" [numerator, denominator])

/-- The template of a quotient in some style. -/
def fractionTemplate : FractionStyle → String
  | .quotient => "\\frac\x7b#1\x7d\x7b#2\x7d"
  | .inlineSolidus => "#1/#2"
  | .niceSolidus => "^\x7b#1\x7d\\!\\!/\\!_\x7b#2\x7d"
  | .reciprocal => "#1\\cdot#2^\x7b-1\x7d"
  | .factor => "\\frac\x7b1\x7d\x7b#2\x7d#1"

/-- Whether a style leaves the operands of a quotient without braces, so that they may need
fences. -/
def leavesUnbraced : FractionStyle → Bool
  | .inlineSolidus | .reciprocal => true
  | _ => false

/-- A quotient. -/
def renderDivide : RenderHandler := fun e level => do
  match e.operands with
  | [numerator, denominator] =>
    let style := (← RenderRoutine.options).fractionStyle e level
    let operand := if leavesUnbraced style then RenderRoutine.wrapShort
      else RenderRoutine.render
    let numerator ← operand numerator (level + 1)
    let denominator ← operand denominator (level + 1)
    return Template.fill (fractionTemplate style) [numerator, denominator]
  | _ => throw (wrongCount e "Divide" 2)

/-- An exponent is the argument after the mark. -/
def parsePower : ParseHandler := fun lhs _ => do
  let exponent ← ParseRoutine.argument.orMissing
  return lhs.map fun base => .apply "Power" [base, exponent]

/-- The denominator of a fraction with numerator one. -/
def reciprocal? (e : Expr) : Option Expr :=
  match e.operands with
  | [numerator, denominator] =>
    if e.isApply "Divide" && numerator.number? == some "1" then some denominator else none
  | _ => none

/-- A root sign. -/
def renderRadical (radicand : Expr) (index : Option Expr) (level : Nat) :
    RenderRoutine String := do
  let radicand ← RenderRoutine.render radicand (level + 1)
  match index with
  | some index =>
    let index ← RenderRoutine.render index (level + 1)
    return "\\sqrt[" ++ index ++ "]\x7b" ++ radicand ++ "\x7d"
  | none => return "\\sqrt\x7b" ++ radicand ++ "\x7d"

/-- A base with its exponent in braces. -/
def renderScript (base exponent : Expr) (level : Nat) : RenderRoutine String := do
  let base ← RenderRoutine.wrapBase base powerPrecedence (level + 1)
  let exponent ← RenderRoutine.render exponent (level + 1)
  return base ++ "^\x7b" ++ exponent ++ "\x7d"

/-- A power; some styles render reciprocals of integers as roots, or inverses as quotients. -/
def renderPower : RenderHandler := fun e level => do
  match e.operands with
  | [base, exponent] =>
    let style := (← RenderRoutine.options).powerStyle e level
    let isInverse := exponent.number? == some "-1"
    match style, reciprocal? exponent with
    | .root, some index =>
      renderRadical base (if index.number? == some "2" then none else some index) level
    | .reciprocal, _ =>
      if isInverse then
        return "\\frac\x7b1\x7d\x7b" ++ (← RenderRoutine.render base (level + 1)) ++ "\x7d"
      else renderScript base exponent level
    | .solidus, _ =>
      if isInverse then return "1/" ++ (← RenderRoutine.wrapShort base (level + 1))
      else renderScript base exponent level
    | _, _ => renderScript base exponent level
  | _ => throw (wrongCount e "Power" 2)

/-- A root command has an optional index and a radicand. -/
def parseRoot : ParseHandler := fun _ _ => do
  let index ← ParseRoutine.optionalArgument
  let radicand ← ParseRoutine.argument.orMissing
  return some (match index with
    | some index => .apply "Root" [radicand, index]
    | none => .apply "Sqrt" [radicand])

/-- The index of a root; square roots have two. -/
def renderIndex (index : Option Expr) (level : Nat) : RenderRoutine String :=
  match index with
  | some index => RenderRoutine.render index (level + 1)
  | none => return "2"

/-- A root in some style. -/
def renderRoot (radicand : Expr) (index : Option Expr) (level : Nat) (style : RootStyle) :
    RenderRoutine String :=
  match style with
  | .radical => renderRadical radicand index level
  | .quotient => do
    let base ← RenderRoutine.wrapShort radicand (level + 1)
    return base ++ "^\x7b\\frac\x7b1\x7d\x7b" ++ (← renderIndex index level) ++ "\x7d\x7d"
  | .solidus => do
    let base ← RenderRoutine.wrapShort radicand (level + 1)
    return base ++ "^\x7b1/" ++ (← renderIndex index level) ++ "\x7d"

/-- A square root. -/
def renderSquareRoot : RenderHandler := fun e level => do
  match e.operands with
  | [radicand] =>
    renderRoot radicand none level ((← RenderRoutine.options).rootStyle e level)
  | _ => throw (wrongCount e "Sqrt" 1)

/-- A root with an index. -/
def renderIndexedRoot : RenderHandler := fun e level => do
  match e.operands with
  | [radicand, index] =>
    renderRoot radicand (some index) level ((← RenderRoutine.options).rootStyle e level)
  | _ => throw (wrongCount e "Root" 2)

/-- The entries of arithmetic. -/
def entries : List Entry := [
  ((Entry.infixOp "+" addPrecedence).named "Add").parseWith (collecting "Add")
    |>.renderWith renderAdd,
  (Entry.infixOp "-" addPrecedence).named "Subtract",
  ((Entry.prefixOp "-" addPrecedence).named "Negate").parseWith parseNegate,
  (Entry.infixOp "\\pm" addPrecedence).named "PlusMinus",
  (Entry.infixOp "*" multiplyPrecedence).parseWith (collecting "Multiply"),
  (Entry.infixOp "\\cdot" multiplyPrecedence).parseWith (collecting "Multiply"),
  ((Entry.infixOp "\\times" multiplyPrecedence).named "Multiply").parseWith
    (collecting "Multiply") |>.renderWith renderMultiply,
  (Entry.infixOp "/" 600).parseAs "Divide",
  (Entry.infixOp "\\div" 600).parseAs "Divide",
  ((Entry.function "\\frac").named "Divide").parseWith parseFraction
    |>.renderWith renderDivide,
  ((Entry.infixOp "^" powerPrecedence).named "Power").right.parseWith parsePower
    |>.renderWith renderPower,
  ((Entry.function "\\sqrt").named "Sqrt").parseWith parseRoot
    |>.renderWith renderSquareRoot,
  ((Entry.untriggered .function).named "Root").renderWith renderIndexedRoot,
  (Entry.postfixOp "!" 810).named "Factorial"]

/-- The entries of mappings. -/
def mappingEntries : List Entry := [
  (Entry.infixOp "\\to" 270).named "To",
  (Entry.infixOp "\\mapsto" 270).named "MapsTo"]

end MathMarkup.Lexicon.Arithmetic
