import MathMarkup.Expr
import MathMarkup.Warning

/-!
# Rendering options

How expressions are rendered. A style that can depend on the place is a selector: a function of
the expression and of how deep it is nested. A configuration can only name constant styles;
`Options.merge` applies such a partial configuration and refuses templates that would drop an
operand.
-/

namespace MathMarkup

/-- Fences around a subexpression. -/
inductive GroupStyle where
  | paren
  | leftRight
  | big
  | none
  deriving DecidableEq, Repr

/-- Puts fences around some markup. -/
def GroupStyle.fence (style : GroupStyle) (left right markup : String) : String :=
  match style with
  | .paren => left ++ markup ++ right
  | .leftRight => "\\left" ++ left ++ markup ++ "\\right" ++ right
  | .big => "\\Bigl" ++ left ++ markup ++ "\\Bigr" ++ right
  | .none => markup

/-- Puts parentheses around some markup. -/
def GroupStyle.wrap (style : GroupStyle) (markup : String) : String :=
  style.fence "(" ")" markup

/-- Renderings of roots. -/
inductive RootStyle where
  | radical
  | quotient
  | solidus
  deriving DecidableEq, Repr

/-- Renderings of quotients. -/
inductive FractionStyle where
  | quotient
  | inlineSolidus
  | niceSolidus
  | reciprocal
  | factor
  deriving DecidableEq, Repr

/-- Renderings of logical connectives. -/
inductive LogicStyle where
  | word
  | boolean
  | uppercaseWord
  | punctuation
  deriving DecidableEq, Repr

/-- Renderings of fractional exponents. -/
inductive PowerStyle where
  | root
  | solidus
  | quotient
  | reciprocal
  deriving DecidableEq, Repr

/-- Renderings of the numeric sets. -/
inductive NumericSetStyle where
  | compact
  | regular
  | interval
  | setBuilder
  deriving DecidableEq, Repr

/-- Renderings of exponents. -/
inductive ExponentStyle where
  /-- As a power of ten. -/
  | power
  /-- After an upright e. -/
  | e
  deriving DecidableEq, Repr

/-- Renderings of repeating decimals. -/
inductive RepeatingStyle where
  | overline
  | parentheses
  /-- The repeating part is written out once. -/
  | none
  deriving DecidableEq, Repr

/-- How numbers are written. -/
structure NumberFormat where
  decimalMarker : String := "."
  groupSeparator : String := "\\,"
  /-- Digits in a group; none are grouped at 0. -/
  digitGroup : Nat := 3
  exponentStyle : ExponentStyle := .power
  repeatingDecimal : RepeatingStyle := .overline
  notANumber : String := "\\operatorname\x7bNaN\x7d"
  positiveInfinity : String := "\\infty"
  negativeInfinity : String := "-\\infty"
  deriving DecidableEq, Repr

/-- A choice of style for an expression at a nesting level. -/
abbrev Selector (α : Type) := Expr → Nat → α

/-- The selector that always picks one style. -/
def Selector.constant {α : Type} (style : α) : Selector α :=
  fun _ _ => style

/-- The rendering options. -/
structure Options where
  /-- Template for a number times a symbol; empty to write the operator. -/
  invisibleMultiply : String := ""
  /-- Template for an integer plus a fraction; empty to write the sign. -/
  invisiblePlus : String := ""
  /-- The multiplication operator. -/
  multiply : String := "\\times"
  /-- What a missing operand is rendered as. -/
  missingSymbol : String := "\\blacksquare"
  /-- Whether parsed expressions keep their markup. -/
  preserveLatex : Bool := false
  number : NumberFormat := {}
  applyFunctionStyle : Selector GroupStyle := .constant .paren
  groupStyle : Selector GroupStyle := .constant .paren
  rootStyle : Selector RootStyle := .constant .radical
  fractionStyle : Selector FractionStyle := .constant .quotient
  logicStyle : Selector LogicStyle := .constant .boolean
  powerStyle : Selector PowerStyle := .constant .quotient
  numericSetStyle : Selector NumericSetStyle := .constant .compact

/-- Options of which only those given are to be changed. -/
structure PartialOptions where
  invisibleMultiply : Option String := none
  invisiblePlus : Option String := none
  multiply : Option String := none
  missingSymbol : Option String := none
  preserveLatex : Option Bool := none
  number : Option NumberFormat := none
  applyFunctionStyle : Option GroupStyle := none
  groupStyle : Option GroupStyle := none
  rootStyle : Option RootStyle := none
  fractionStyle : Option FractionStyle := none
  logicStyle : Option LogicStyle := none
  powerStyle : Option PowerStyle := none
  numericSetStyle : Option NumericSetStyle := none
  deriving DecidableEq, Repr

namespace Options

/-- Whether some text occurs in another one. -/
def occurs (piece : List Char) : List Char → Bool
  | [] => piece.isEmpty
  | c :: cs => piece.isPrefixOf (c :: cs) || occurs piece cs

/-- Whether a template for an invisible operator is usable: empty, or with both placeholders. -/
def isUsableTemplate (template : String) : Bool :=
  template.isEmpty || (occurs ['#', '1'] template.toList && occurs ['#', '2'] template.toList)

/-- The new template, or the old one with a warning if the new one is unusable. -/
def mergeTemplate (option : String) (old : String) : Option String → String × List Warning
  | none => (old, [])
  | some new => if isUsableTemplate new then (new, []) else (old, [.expectedArgument option new])

/-- The constant selector of a style if one is given. -/
def mergeStyle {α : Type} (old : Selector α) : Option α → Selector α
  | none => old
  | some style => .constant style

/-- Changes the options that are given. An unusable template is reported and not taken. -/
def merge (o : Options) (p : PartialOptions) : Options × List Warning :=
  let (invisibleMultiply, w₁) :=
    mergeTemplate "invisibleMultiply" o.invisibleMultiply p.invisibleMultiply
  let (invisiblePlus, w₂) := mergeTemplate "invisiblePlus" o.invisiblePlus p.invisiblePlus
  ({ invisibleMultiply, invisiblePlus
     multiply := p.multiply.getD o.multiply
     missingSymbol := p.missingSymbol.getD o.missingSymbol
     preserveLatex := p.preserveLatex.getD o.preserveLatex
     number := p.number.getD o.number
     applyFunctionStyle := mergeStyle o.applyFunctionStyle p.applyFunctionStyle
     groupStyle := mergeStyle o.groupStyle p.groupStyle
     rootStyle := mergeStyle o.rootStyle p.rootStyle
     fractionStyle := mergeStyle o.fractionStyle p.fractionStyle
     logicStyle := mergeStyle o.logicStyle p.logicStyle
     powerStyle := mergeStyle o.powerStyle p.powerStyle
     numericSetStyle := mergeStyle o.numericSetStyle p.numericSetStyle }, w₁ ++ w₂)

end Options
end MathMarkup
