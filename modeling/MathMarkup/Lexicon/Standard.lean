import MathMarkup.Lexicon.Category.Arithmetic
import MathMarkup.Lexicon.Category.Connectives
import MathMarkup.Lexicon.Category.Elementary
import MathMarkup.Lexicon.Category.Relations
import MathMarkup.Lexicon.Category.Sets
import MathMarkup.Lexicon.Category.Structure
import MathMarkup.Lexicon.Index

/-!
# The standard lexicon

The entries for usual notation in their categories, and the index of all of them.
-/

namespace MathMarkup

/-- The categories of the standard lexicon. -/
inductive Category where
  /-- Sequences, delimiters, lists, subscripts, errors and matrices. -/
  | core
  | arithmetic
  /-- Mappings. -/
  | algebra
  /-- Relations. -/
  | inequalities
  /-- Connectives and truth values. -/
  | logic
  | sets
  /-- Elementary functions and constants. -/
  | functions
  deriving DecidableEq, Repr

namespace Category

/-- Every category, in the order of the standard lexicon. -/
def all : List Category :=
  [.core, .arithmetic, .algebra, .inequalities, .logic, .sets, .functions]

/-- What a category is called. -/
def label : Category → String
  | .core => "Core"
  | .arithmetic => "Arithmetic"
  | .algebra => "Algebra"
  | .inequalities => "Inequalities"
  | .logic => "Logic"
  | .sets => "Sets"
  | .functions => "Functions"

/-- The category that is called by a label. -/
def ofLabel? (s : String) : Option Category :=
  all.find? (·.label == s)

/-- The entries of a category. -/
def entries : Category → List Entry
  | .core => Lexicon.Structure.entries
  | .arithmetic => Lexicon.Arithmetic.entries
  | .algebra => Lexicon.Arithmetic.mappingEntries
  | .inequalities => Lexicon.Relations.entries
  | .logic => Lexicon.Connectives.entries
  | .sets => Lexicon.Sets.entries
  | .functions => Lexicon.Elementary.entries

end Category

/-- The standard lexicon. -/
def Lexicon.standard : List Entry :=
  Category.all.flatMap Category.entries

/-- The index of the standard lexicon. -/
def Index.standard : Index :=
  (Index.ofEntries Lexicon.standard).1

end MathMarkup
