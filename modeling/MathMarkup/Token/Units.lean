import MathMarkup.Token.Lexer

/-!
# Lexical units

How many things a reader sees in some markup: a command, a subscript mark or a superscript mark
forms one unit with the braced groups right after it; any other braced group is one unit, and so
is any other token outside of braces.
-/

namespace MathMarkup.Token

/-- Whether a token takes the braced groups after it into its own unit. -/
def absorbsGroups (t : Token) : Bool :=
  t.kind == .command || (t.kind == .char && (t.raw == "_" || t.raw == "^"))

/-- Counts the units of a token list that starts inside `depth` open groups. The flag says that
the unit just counted takes a group that follows. -/
def countUnitsFrom (depth : Nat) (absorbing : Bool) : List Token → Nat
  | [] => 0
  | t :: ts =>
    match t.kind, depth with
    | .openGroup, 0 =>
      if absorbing then countUnitsFrom 1 true ts else 1 + countUnitsFrom 1 false ts
    | .openGroup, d + 1 => countUnitsFrom (d + 2) absorbing ts
    | .closeGroup, d => countUnitsFrom (d - 1) absorbing ts
    | _, 0 => 1 + countUnitsFrom 0 t.absorbsGroups ts
    | _, d + 1 => countUnitsFrom (d + 1) absorbing ts

/-- The number of lexical units of some tokens. -/
def countUnits (tokens : List Token) : Nat :=
  countUnitsFrom 0 false tokens

end Token

/-- The number of lexical units of some markup. -/
def countTokens (markup : String) : Nat :=
  Token.countUnits (Token.scan markup)

end MathMarkup
