/-!
# Expressions

What markup means: numbers kept as text so that no digit is lost, string literals, symbols, a head
applied to operands, tables of keyed expressions, and any of these with the markup it was read
from. An annotation is transparent: the accessors look through it, and `strip` takes it off.

Whatever cannot be read becomes an expression too, an application of `Error` (`Expr.error`), so
reading markup never fails.
-/

namespace MathMarkup

/-- An expression. -/
inductive Expr where
  /-- A numeral such as `12.5`, `-3e8` or `NaN`. -/
  | number (text : String)
  /-- A string literal. -/
  | string (value : String)
  | symbol (name : String)
  | apply (head : String) (operands : List Expr)
  | table (entries : List (String × Expr))
  /-- An expression with the markup it was read from. -/
  | annotated (markup : String) (expr : Expr)
  deriving Repr, Inhabited

/-- What went wrong where an error node stands. -/
inductive ErrorCode where
  /-- An operand is missing. -/
  | missing
  /-- The markup nests too deeply. -/
  | syntaxError
  /-- An identifier where an operator was expected. -/
  | unexpectedIdentifier
  /-- An open delimiter that is never closed. -/
  | unexpectedOpenDelimiter
  /-- A close delimiter that was never opened. -/
  | expectedOpenDelimiter
  /-- A group that the input ends before its closing brace. -/
  | expectedClosingDelimiter
  /-- A token without a meaning where it stands. -/
  | unexpectedToken
  /-- A command that no entry knows. -/
  | unexpectedCommand
  deriving DecidableEq, Repr

/-- The spelling of a code inside an error node. -/
def ErrorCode.spelling : ErrorCode → String
  | .missing => "missing"
  | .syntaxError => "syntax-error"
  | .unexpectedIdentifier => "unexpected-identifier"
  | .unexpectedOpenDelimiter => "unexpected-open-delimiter"
  | .expectedOpenDelimiter => "expected-open-delimiter"
  | .expectedClosingDelimiter => "expected-closing-delimiter"
  | .unexpectedToken => "unexpected-token"
  | .unexpectedCommand => "unexpected-command"

/-- Every code. -/
def ErrorCode.all : List ErrorCode :=
  [.missing, .syntaxError, .unexpectedIdentifier, .unexpectedOpenDelimiter,
    .expectedOpenDelimiter, .expectedClosingDelimiter, .unexpectedToken, .unexpectedCommand]

/-- The code with a spelling. -/
def ErrorCode.ofSpelling? (s : String) : Option ErrorCode :=
  ErrorCode.all.find? (·.spelling == s)

theorem ErrorCode.ofSpelling?_spelling (c : ErrorCode) : ofSpelling? c.spelling = some c := by
  cases c <;> decide

namespace Expr

/-- A sequence of expressions, as commas or the lack of an operator leave them. -/
def sequence (operands : List Expr) : Expr :=
  .apply "Sequence" operands

/-- An error node: its code, alone or with an argument such as the offending command, and the
markup it covers unless that is empty. -/
def error (code : ErrorCode) (arg : Option String) (markup : String) : Expr :=
  let what := match arg with
    | some arg => .apply "ErrorCode" [.string code.spelling, .string arg]
    | none => .string code.spelling
  let context := if markup.isEmpty then [] else [.apply "Latex" [.string markup]]
  .apply "Error" (what :: context)

/-- The node that stands for a missing operand. -/
def missing : Expr :=
  error .missing none ""

/-- The expression without annotations around it. Those of its operands stay. -/
def strip : Expr → Expr
  | .annotated _ e => e.strip
  | e => e

/-- The expression with the markup it was read from, in place of an earlier annotation. -/
def annotate (e : Expr) (markup : String) : Expr :=
  .annotated markup e.strip

/-- The markup of an annotation. -/
def markup? : Expr → Option String
  | .annotated markup _ => some markup
  | _ => none

/-- The head of an application. -/
def head? (e : Expr) : Option String :=
  match e.strip with
  | .apply head _ => some head
  | _ => none

/-- The operands of an application; anything else has none. -/
def operands (e : Expr) : List Expr :=
  match e.strip with
  | .apply _ operands => operands
  | _ => []

/-- The operand with a number from 1. -/
def operand? (e : Expr) : Nat → Option Expr
  | 0 => none
  | n + 1 => e.operands[n]?

/-- The name of a symbol. -/
def symbol? (e : Expr) : Option String :=
  match e.strip with
  | .symbol name => some name
  | _ => none

/-- The text of a number. -/
def number? (e : Expr) : Option String :=
  match e.strip with
  | .number text => some text
  | _ => none

/-- The value of a string literal. -/
def string? (e : Expr) : Option String :=
  match e.strip with
  | .string value => some value
  | _ => none

/-- The entries of a table. -/
def entries? (e : Expr) : Option (List (String × Expr)) :=
  match e.strip with
  | .table entries => some entries
  | _ => none

/-- Numbers, string literals and symbols are atoms. -/
def isAtom (e : Expr) : Bool :=
  match e.strip with
  | .number _ | .string _ | .symbol _ => true
  | _ => false

/-- Whether the expression applies a given head. -/
def isApply (e : Expr) (head : String) : Bool :=
  e.head? == some head

/-- The operands that a body between delimiters contributes: those of a sequence, or itself. -/
def splat : Option Expr → List Expr
  | none => []
  | some body =>
    match body.strip with
    | .apply head operands => if head = "Sequence" then operands else [.apply head operands]
    | e => [e]

mutual
/-- Whether an error node stands anywhere in the expression. -/
def hasErrors : Expr → Bool
  | .apply head operands => head == "Error" || anyHasErrors operands
  | .table entries => anyEntryHasErrors entries
  | .annotated _ e => hasErrors e
  | _ => false
/-- Whether an error node stands anywhere in some expressions. -/
def anyHasErrors : List Expr → Bool
  | [] => false
  | e :: es => hasErrors e || anyHasErrors es
/-- Whether an error node stands anywhere in some entries. -/
def anyEntryHasErrors : List (String × Expr) → Bool
  | [] => false
  | (_, e) :: es => hasErrors e || anyEntryHasErrors es
end

mutual
/-- The number of nodes. -/
def size : Expr → Nat
  | .apply _ operands => 1 + sizeAll operands
  | .table entries => 1 + sizeEntries entries
  | .annotated _ e => 1 + size e
  | _ => 1
/-- The number of nodes of some expressions. -/
def sizeAll : List Expr → Nat
  | [] => 0
  | e :: es => size e + sizeAll es
/-- The number of nodes of some entries. -/
def sizeEntries : List (String × Expr) → Nat
  | [] => 0
  | (_, e) :: es => size e + sizeEntries es
end

mutual
/-- Structural equality as a test. -/
def beq : Expr → Expr → Bool
  | .number a, .number b => a == b
  | .string a, .string b => a == b
  | .symbol a, .symbol b => a == b
  | .apply f xs, .apply g ys => f == g && beqAll xs ys
  | .table xs, .table ys => beqEntries xs ys
  | .annotated m a, .annotated n b => m == n && beq a b
  | _, _ => false
/-- Equality of operand lists as a test. -/
def beqAll : List Expr → List Expr → Bool
  | [], [] => true
  | x :: xs, y :: ys => beq x y && beqAll xs ys
  | _, _ => false
/-- Equality of entry lists as a test. -/
def beqEntries : List (String × Expr) → List (String × Expr) → Bool
  | [], [] => true
  | (k, x) :: xs, (l, y) :: ys => k == l && beq x y && beqEntries xs ys
  | _, _ => false
end

mutual
/-- Comparing by computation decides equality. -/
theorem beq_iff (a b : Expr) : beq a b = true ↔ a = b := by
  cases a <;> cases b <;> simp [beq]
  case apply.apply f xs g ys => simp [beqAll_iff xs ys]
  case table.table xs ys => simp [beqEntries_iff xs ys]
  case annotated.annotated m x n y => simp [beq_iff x y]
theorem beqAll_iff (xs ys : List Expr) : beqAll xs ys = true ↔ xs = ys := by
  cases xs <;> cases ys <;> simp [beqAll]
  case cons.cons x xs y ys => simp [beq_iff x y, beqAll_iff xs ys]
theorem beqEntries_iff (xs ys : List (String × Expr)) :
    beqEntries xs ys = true ↔ xs = ys := by
  cases xs <;> cases ys <;> simp [beqEntries]
  case cons.cons x xs y ys =>
    obtain ⟨k, x⟩ := x
    obtain ⟨l, y⟩ := y
    simp [beq_iff x y, beqEntries_iff xs ys, and_assoc]
end

instance : DecidableEq Expr := fun a b =>
  decidable_of_iff (beq a b = true) (beq_iff a b)

/-- A member of a list is no larger than the list. -/
theorem size_lt_of_mem {e : Expr} {es : List Expr} (h : e ∈ es) : e.size ≤ sizeAll es := by
  induction es with
  | nil => simp at h
  | cons x xs ih =>
    rcases List.mem_cons.1 h with rfl | h
    · simp [sizeAll]
    · have := ih h
      simp only [sizeAll]
      omega

/-- Stripping annotations makes nothing larger. -/
theorem size_strip_le (e : Expr) : e.strip.size ≤ e.size := by
  fun_induction strip e with
  | case1 m e ih => simp only [size]; omega
  | case2 e h => exact Nat.le_refl _

/-- Operands are smaller than what they are operands of. -/
theorem size_lt_of_mem_operands {e o : Expr} (h : o ∈ e.operands) : o.size < e.size := by
  have hs := size_strip_le e
  unfold operands at h
  cases heq : e.strip with
  | apply head ops =>
    rw [heq] at h hs
    have := size_lt_of_mem (show o ∈ ops from h)
    simp only [size] at hs
    omega
  | _ =>
    rw [heq] at h
    exact absurd h List.not_mem_nil

/-- What is stripped is no annotation. -/
theorem strip_ne_annotated (e : Expr) (markup : String) (inner : Expr) :
    e.strip ≠ .annotated markup inner := by
  fun_induction strip e with
  | case1 m e ih => exact ih
  | case2 e h => exact h markup inner

/-- What is stripped has nothing left to strip. -/
theorem strip_strip (e : Expr) : e.strip.strip = e.strip := by
  fun_induction strip e with
  | case1 m e ih => exact ih
  | case2 e h => cases e <;> simp_all [strip]

end Expr
end MathMarkup
