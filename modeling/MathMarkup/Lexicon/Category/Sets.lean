import MathMarkup.Lexicon.Entry

/-!
# Sets

The numeric sets, the empty set, membership, inclusion and the operations on sets. The style for
numeric sets decides how those are rendered.
-/

namespace MathMarkup.Lexicon.Sets

/-- A numeric set with its two spellings. -/
structure NumericSet where
  name : String
  compact : String
  regular : String

/-- The numeric sets. -/
def numericSets : List NumericSet := [
  ⟨"NonNegativeIntegers", "\\mathbb\x7bN\x7d", "\\N"⟩,
  ⟨"Integers", "\\mathbb\x7bZ\x7d", "\\Z"⟩,
  ⟨"RationalNumbers", "\\mathbb\x7bQ\x7d", "\\Q"⟩,
  ⟨"RealNumbers", "\\mathbb\x7bR\x7d", "\\R"⟩,
  ⟨"ComplexNumbers", "\\mathbb\x7bC\x7d", "\\C"⟩]

/-- A numeric set in some style. Only the real numbers are an interval. -/
def NumericSet.markup (s : NumericSet) : NumericSetStyle → String
  | .compact => s.compact
  | .regular => s.regular
  | .interval =>
    if s.name = "RealNumbers" then "\\lbrack-\\infty, \\infty\\rbrack" else s.compact
  | .setBuilder => "\\lbrace x\\in" ++ s.compact ++ "\\rbrace"

/-- The rendering of a numeric set. -/
def renderNumericSet (s : NumericSet) : RenderHandler := fun e level => do
  return s.markup ((← RenderRoutine.options).numericSetStyle e level)

/-- Both spellings of a numeric set; the compact one is the canonical one. -/
def numericSetEntries (s : NumericSet) : List Entry := [
  (Entry.identifier s.regular).parseAs s.name,
  ((Entry.identifier s.compact).named s.name).renderWith (renderNumericSet s)]

/-- The entries. -/
def entries : List Entry :=
  numericSets.flatMap numericSetEntries ++ [
    (Entry.identifier "\\varnothing").parseAs "EmptySet",
    (Entry.identifier "\\emptyset").named "EmptySet",
    (Entry.infixOp "\\in" 240).named "Element",
    (Entry.infixOp "\\notin" 240).named "NotElement",
    (Entry.infixOp "\\subset" 240).named "Subset",
    (Entry.infixOp "\\subseteq" 240).named "SubsetEqual",
    (Entry.infixOp "\\supset" 240).named "Superset",
    (Entry.infixOp "\\supseteq" 240).named "SupersetEqual",
    (Entry.infixOp "\\cup" 350).named "Union",
    (Entry.infixOp "\\cap" 350).named "Intersection",
    (Entry.infixOp "\\setminus" 650).named "SetMinus"]

end MathMarkup.Lexicon.Sets
