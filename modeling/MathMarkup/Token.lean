/-!
# Tokens

A token is a stretch of markup together with its lexical kind. The parser never looks behind the
kind: a token list need not come from the lexer, and any raw text may carry any kind.
-/

namespace MathMarkup

/-- The lexical kinds. -/
inductive TokenKind where
  /-- A control word such as `\alpha`, or a control symbol such as `\,`. -/
  | command
  /-- A run of digits with at most one decimal point. -/
  | number
  /-- The verbatim argument of a text command, blanks included. -/
  | text
  /-- An opening brace. -/
  | openGroup
  /-- A closing brace. -/
  | closeGroup
  /-- Any other single character. -/
  | char
  deriving DecidableEq, Repr, Inhabited

/-- A stretch of markup and its kind. -/
structure Token where
  raw : String
  kind : TokenKind
  deriving DecidableEq, Repr, Inhabited

namespace Token

/-- The raw texts of a token list. -/
def raws (tokens : List Token) : List String :=
  tokens.map raw

/-- Commands whose braced argument is one verbatim text token. -/
def textCommands : List String := ["\\text", "\\textrm", "\\mbox"]

/-- How much input a token stands for: its bytes, and never nothing. Splitting a number in two
keeps the sum, and consuming a token lowers it, so readers of token lists end. -/
def weight (t : Token) : Nat :=
  max 1 t.raw.utf8ByteSize

theorem weight_pos (t : Token) : 0 < t.weight := by
  unfold weight; omega

end Token

/-- The weight of a token list is what its tokens weigh together. -/
def tokensWeight : List Token → Nat
  | [] => 0
  | t :: ts => t.weight + tokensWeight ts

end MathMarkup
