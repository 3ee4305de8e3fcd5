import MathMarkup.Lexicon.Entry

/-!
# Relations

Equality, order and similarity. Every relation groups on the right, so a chain of relations is
read as the first one holding of the rest.
-/

namespace MathMarkup.Lexicon.Relations

/-- A relation with its canonical spelling. -/
def relation (trigger : String) (precedence : Precedence) (name : String) : Entry :=
  ((Entry.infixOp trigger precedence).named name).right

/-- Another spelling of a relation. -/
def spelling (trigger : String) (precedence : Precedence) (name : String) : Entry :=
  ((Entry.infixOp trigger precedence).parseAs name).right

/-- The entries. -/
def entries : List Entry := [
  relation "=" 260 "Equal",
  spelling "\\eq" 260 "Equal",
  spelling "!=" 260 "NotEqual",
  spelling "\\neq" 260 "NotEqual",
  relation "\\ne" 260 "NotEqual",
  spelling "\\coloneq" 260 "Assign",
  relation ":=" 260 "Assign",
  spelling "\\lt" 245 "Less",
  relation "<" 245 "Less",
  spelling "<=" 241 "LessEqual",
  spelling "\\leq" 241 "LessEqual",
  spelling "\\leqq" 241 "LessEqual",
  relation "\\le" 241 "LessEqual",
  spelling "\\gt" 245 "Greater",
  relation ">" 245 "Greater",
  spelling ">=" 242 "GreaterEqual",
  spelling "\\geq" 242 "GreaterEqual",
  spelling "\\geqq" 242 "GreaterEqual",
  relation "\\ge" 242 "GreaterEqual",
  relation "\\nless" 246 "NotLess",
  relation "\\ngtr" 246 "NotGreater",
  relation "\\ll" 246 "MuchLess",
  relation "\\gg" 246 "MuchGreater",
  spelling "\\thickapprox" 247 "Approx",
  relation "\\approx" 247 "Approx",
  relation "\\approxeq" 247 "ApproxEqual",
  relation "\\sim" 247 "Similar",
  relation "\\cong" 247 "Congruent",
  relation "\\propto" 247 "Proportional"]

end MathMarkup.Lexicon.Relations
