import MathMarkup.Options

/-!
# Style spellings and style rules

A style has a spelling in configurations, in lower case with hyphens, and a label in summaries. A
style rule is a selector as data: a style for each nesting level, the last one for all deeper
levels, with exceptions for applications of certain heads.
-/

namespace MathMarkup

/-- Styles with their spelling in configurations and their label. -/
class Spelled (α : Type) where
  table : List (α × String × String)

instance : Spelled GroupStyle where
  table := [(.paren, "paren", "Paren"), (.leftRight, "left-right", "LeftRight"),
    (.big, "big", "Big"), (.none, "none", "None")]

instance : Spelled RootStyle where
  table := [(.radical, "radical", "Radical"), (.quotient, "quotient", "Quotient"),
    (.solidus, "solidus", "Solidus")]

instance : Spelled FractionStyle where
  table := [(.quotient, "quotient", "Quotient"),
    (.inlineSolidus, "inline-solidus", "InlineSolidus"),
    (.niceSolidus, "nice-solidus", "NiceSolidus"), (.reciprocal, "reciprocal", "Reciprocal"),
    (.factor, "factor", "Factor")]

instance : Spelled LogicStyle where
  table := [(.word, "word", "Word"), (.boolean, "boolean", "Boolean"),
    (.uppercaseWord, "uppercase-word", "UppercaseWord"),
    (.punctuation, "punctuation", "Punctuation")]

instance : Spelled PowerStyle where
  table := [(.root, "root", "Root"), (.solidus, "solidus", "Solidus"),
    (.quotient, "quotient", "Quotient"), (.reciprocal, "reciprocal", "Reciprocal")]

instance : Spelled NumericSetStyle where
  table := [(.compact, "compact", "Compact"), (.regular, "regular", "Regular"),
    (.interval, "interval", "Interval"), (.setBuilder, "set-builder", "SetBuilder")]

instance : Spelled ExponentStyle where
  table := [(.power, "power", "Power"), (.e, "e", "E")]

instance : Spelled RepeatingStyle where
  table := [(.overline, "overline", "Overline"), (.parentheses, "parentheses", "Parentheses"),
    (.none, "none", "None")]

namespace Spelled

variable {α : Type} [Spelled α]

/-- The style with a spelling. -/
def ofSpelling? (s : String) : Option α :=
  ((table : List (α × String × String)).find? (·.2.1 == s)).map (·.1)

/-- The label of a style. -/
def label [BEq α] (style : α) : String :=
  (((table : List (α × String × String)).find? (·.1 == style)).map (·.2.2)).getD ""

end Spelled

/-- A selector as data. -/
structure StyleRule (α : Type) where
  /-- The styles from the outermost level on. -/
  levels : List α
  /-- Styles for applications of certain heads at any level. -/
  heads : List (String × α)

namespace StyleRule

variable {α : Type}

/-- The style of a rule, or what the rule replaces if it has no levels. -/
def select (rule : StyleRule α) (old : Selector α) : Selector α := fun e level =>
  match e.head?.bind fun head => rule.heads.lookup head with
  | some style => style
  | none =>
    match rule.levels[min level (rule.levels.length - 1)]? with
    | some style => style
    | none => old e level

end StyleRule

/-- Rules for some of the styles. -/
structure StyleRules where
  applyFunctionStyle : Option (StyleRule GroupStyle) := none
  groupStyle : Option (StyleRule GroupStyle) := none
  rootStyle : Option (StyleRule RootStyle) := none
  fractionStyle : Option (StyleRule FractionStyle) := none
  logicStyle : Option (StyleRule LogicStyle) := none
  powerStyle : Option (StyleRule PowerStyle) := none
  numericSetStyle : Option (StyleRule NumericSetStyle) := none

/-- The selector that a rule gives, if there is one. -/
def Selector.withRule {α : Type} (old : Selector α) : Option (StyleRule α) → Selector α
  | some rule => rule.select old
  | none => old

/-- Selects styles by rules. -/
def Options.withRules (o : Options) (rules : StyleRules) : Options :=
  { o with
    applyFunctionStyle := o.applyFunctionStyle.withRule rules.applyFunctionStyle
    groupStyle := o.groupStyle.withRule rules.groupStyle
    rootStyle := o.rootStyle.withRule rules.rootStyle
    fractionStyle := o.fractionStyle.withRule rules.fractionStyle
    logicStyle := o.logicStyle.withRule rules.logicStyle
    powerStyle := o.powerStyle.withRule rules.powerStyle
    numericSetStyle := o.numericSetStyle.withRule rules.numericSetStyle }

end MathMarkup
