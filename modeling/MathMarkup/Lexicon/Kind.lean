/-!
# Kinds of entries

The syntactic roles that an entry of a lexicon can ask for, how tightly operators bind, and on
which side repeated operators group.
-/

namespace MathMarkup

/-- The syntactic role of an entry. -/
inductive Kind where
  /-- A symbol such as `\pi`. -/
  | identifier
  /-- A function such as `\sin`, with or without arguments. -/
  | function
  /-- An operator before its operand. -/
  | prefixOp
  /-- An operator between its operands. -/
  | infixOp
  /-- An operator after its operand. -/
  | postfixOp
  /-- A pair of delimiters around an expression. -/
  | matchfix
  /-- A block between a begin and an end command. -/
  | environment
  deriving DecidableEq, Repr

/-- What a kind is called in messages. -/
def Kind.label : Kind → String
  | .identifier => "identifier"
  | .function => "function"
  | .prefixOp => "prefix"
  | .infixOp => "infix"
  | .postfixOp => "postfix"
  | .matchfix => "matchfix"
  | .environment => "environment"

/-- Every kind. -/
def Kind.all : List Kind :=
  [.identifier, .function, .prefixOp, .infixOp, .postfixOp, .matchfix, .environment]

/-- The kind that is called by a label. -/
def Kind.ofLabel? (s : String) : Option Kind :=
  Kind.all.find? (·.label == s)

theorem Kind.ofLabel?_label (k : Kind) : Kind.ofLabel? k.label = some k := by
  cases k <;> decide

/-- How tightly an operator binds; a higher precedence binds tighter. -/
abbrev Precedence := Fin 65536

/-- A literal stands for the precedence with that number, modulo their count. -/
instance precedenceLiteral (n : Nat) : OfNat Precedence n :=
  ⟨n % 65536, Nat.mod_lt n (by decide)⟩

namespace Precedence

/-- The loosest precedence. -/
def loosest : Precedence := 0

/-- The tightest precedence. -/
def tightest : Precedence := 65535

/-- One step tighter, up to the tightest. -/
def tighter (p : Precedence) : Precedence :=
  if h : p.val + 1 < 65536 then ⟨p.val + 1, h⟩ else p

/-- The tighter one of two precedences. -/
def tighterOf (p q : Precedence) : Precedence :=
  if p < q then q else p

/-- The precedence with a number, if it is in range. -/
def ofNat? (n : Nat) : Option Precedence :=
  if h : n < 65536 then some ⟨n, h⟩ else none

end Precedence

/-- On which side repeated infix operators group. -/
inductive Associativity where
  | left
  | right
  deriving DecidableEq, Repr

end MathMarkup
