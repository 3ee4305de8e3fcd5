import MathMarkup.Token

/-!
# The lexer

`Token.scan` cuts markup into tokens and never fails: a character without a meaning of its own is
a `char` token. Between tokens, blanks and comments (from a percent sign up to the end of the
line) are dropped. The one exception is the braced argument of a text command, which is a single
verbatim token up to the brace that closes it.

Each step hands on the rest of the input with a proof that it is shorter, so the scan is a
recursion on the length of the input.
-/

namespace MathMarkup

/-- Whether a character has the Unicode property White_Space, as 25 characters do. Invisible
characters without it, such as the zero width space and the byte order mark, are not blank. -/
def isBlank (c : Char) : Bool :=
  let n := c.toNat
  (9 ≤ n && n ≤ 13) || n == 32 || n == 0x85 || n == 0xa0 || n == 0x1680 ||
    (0x2000 ≤ n && n ≤ 0x200a) || n == 0x2028 || n == 0x2029 || n == 0x202f ||
    n == 0x205f || n == 0x3000

/-- The newline that ends a comment is itself blank. -/
theorem isBlank_newline : isBlank '\n' = true := rfl

namespace Lexer

/-- Drops blanks and comments. The flag says that we are inside a comment; the newline that ends
one is a blank, so it goes too. -/
def skipIgnored (comment : Bool) : List Char → List Char
  | [] => []
  | c :: cs =>
    if comment then skipIgnored (c != '\n') cs
    else if isBlank c then skipIgnored false cs
    else if c == '%' then skipIgnored true cs
    else c :: cs

/-- The verbatim text before the brace that closes the current group, and the rest. A backslash
takes the next character with it, so escaped braces do not count. -/
def splitText (depth : Nat) (escaped : Bool) : List Char → List Char × List Char
  | [] => ([], [])
  | c :: cs =>
    let go (depth : Nat) (escaped : Bool) :=
      let r := splitText depth escaped cs
      (c :: r.1, r.2)
    if escaped then go depth false
    else if c == '\\' then go depth true
    else if c == '{' then go (depth + 1) false
    else if c == '}' then
      match depth with
      | 0 => ([], c :: cs)
      | d + 1 => go d false
    else go depth false

/-- The name of a command after its backslash, and the rest: a run of ASCII letters, else one
character, else nothing at the end of the input. -/
def splitCommand (cs : List Char) : List Char × List Char :=
  match cs.takeWhile Char.isAlpha with
  | [] => (cs.take 1, cs.drop 1)
  | word => (word, cs.dropWhile Char.isAlpha)

/-- The digits of a fraction that starts with its point. -/
def fractionDigits : List Char → List Char
  | '.' :: cs => cs.takeWhile Char.isDigit
  | _ => []

/-- A number at the start of the input, and the rest: digits with at most one point, which counts
only if a digit follows it. -/
def splitNumber? (cs : List Char) : Option (List Char × List Char) :=
  let whole := cs.takeWhile Char.isDigit
  let rest := cs.dropWhile Char.isDigit
  match fractionDigits rest with
  | [] => if whole.isEmpty then none else some (whole, rest)
  | fraction => some (whole ++ '.' :: fraction, rest.drop (fraction.length + 1))

/-- What the lexer has just read. -/
inductive Mode where
  /-- Nothing special. -/
  | math
  /-- A text command, whose argument may follow. -/
  | textCommand
  /-- The brace that opens the argument of a text command. -/
  | textOpen
  deriving DecidableEq, Repr

/-- The mode after a command. -/
def Mode.afterCommand (raw : String) : Mode :=
  if Token.textCommands.contains raw then .textCommand else .math

/-- A token in math mode, with the mode and the rest after it. -/
def mathToken? (mode : Mode) (cs : List Char) : Option (Token × Mode × List Char) :=
  match skipIgnored false cs with
  | [] => none
  | '\\' :: rest =>
    let (name, rest) := splitCommand rest
    let raw := String.ofList ('\\' :: name)
    some (⟨raw, .command⟩, .afterCommand raw, rest)
  | c :: rest =>
    match splitNumber? (c :: rest) with
    | some (digits, rest) => some (⟨String.ofList digits, .number⟩, .math, rest)
    | none =>
      let raw := String.ofList [c]
      if c == '{' then
        some (⟨raw, .openGroup⟩, if mode = .textCommand then .textOpen else .math, rest)
      else if c == '}' then some (⟨raw, .closeGroup⟩, .math, rest)
      else some (⟨raw, .char⟩, .math, rest)

/-- The next token, with the mode and the rest after it. -/
def next? (mode : Mode) (cs : List Char) : Option (Token × Mode × List Char) :=
  if mode = .textOpen then
    match splitText 0 false cs with
    | ([], _) => mathToken? .math cs
    | (text, rest) => some (⟨String.ofList text, .text⟩, .math, rest)
  else mathToken? mode cs

theorem length_skipIgnored_le (b : Bool) (cs : List Char) :
    (skipIgnored b cs).length ≤ cs.length := by
  induction cs generalizing b with
  | nil => simp [skipIgnored]
  | cons c cs ih =>
    unfold skipIgnored
    have h₁ := ih (c != '\n')
    have h₂ := ih false
    have h₃ := ih true
    simp only [List.length_cons]
    repeat' split
    all_goals first | omega | simp

theorem splitText_append (d : Nat) (e : Bool) (cs : List Char) :
    (splitText d e cs).1 ++ (splitText d e cs).2 = cs := by
  induction cs generalizing d e with
  | nil => simp [splitText]
  | cons c cs ih =>
    unfold splitText
    repeat' split
    all_goals simp [ih]

theorem splitCommand_append (cs : List Char) :
    (splitCommand cs).1 ++ (splitCommand cs).2 = cs := by
  unfold splitCommand
  split
  · exact List.take_append_drop 1 cs
  · exact List.takeWhile_append_dropWhile

theorem fractionDigits_append {cs : List Char} (h : fractionDigits cs ≠ []) :
    '.' :: fractionDigits cs ++ cs.drop ((fractionDigits cs).length + 1) = cs := by
  unfold fractionDigits at h ⊢
  split
  case h_1 after =>
    have ht := List.takeWhile_append_dropWhile (p := Char.isDigit) (l := after)
    have hd : after.drop (after.takeWhile Char.isDigit).length = after.dropWhile Char.isDigit := by
      conv => lhs; arg 2; rw [← ht]
      rw [List.drop_left]
    simp [hd, ht]
  case h_2 => simp_all

theorem splitNumber?_append {cs digits rest : List Char}
    (h : splitNumber? cs = some (digits, rest)) : digits ++ rest = cs ∧ digits ≠ [] := by
  have hcs : cs.takeWhile Char.isDigit ++ cs.dropWhile Char.isDigit = cs :=
    List.takeWhile_append_dropWhile
  simp only [splitNumber?] at h
  cases hfraction : fractionDigits (cs.dropWhile Char.isDigit) with
  | nil =>
    rw [hfraction] at h
    dsimp only at h
    by_cases hw : (cs.takeWhile Char.isDigit).isEmpty = true
    · rw [if_pos hw] at h
      cases h
    · rw [if_neg hw] at h
      simp only [Option.some.injEq, Prod.mk.injEq] at h
      obtain ⟨rfl, rfl⟩ := h
      exact ⟨hcs, by simpa using hw⟩
  | cons d ds =>
    have hf := @fractionDigits_append (cs.dropWhile Char.isDigit)
      (by rw [hfraction]; exact List.cons_ne_nil d ds)
    rw [hfraction] at h hf
    simp only [Option.some.injEq, Prod.mk.injEq] at h
    obtain ⟨rfl, rfl⟩ := h
    refine ⟨?_, by simp⟩
    rw [List.append_assoc, hf, hcs]

/-- Each token takes at least one character from the input. -/
theorem length_mathToken? {mode mode' : Mode} {cs rest : List Char} {t : Token}
    (h : mathToken? mode cs = some (t, mode', rest)) : rest.length < cs.length := by
  have hs := length_skipIgnored_le false cs
  unfold mathToken? at h
  split at h
  case h_1 => simp at h
  case h_2 after heq =>
    rw [heq] at hs
    have hc := congrArg List.length (splitCommand_append after)
    simp only [Option.some.injEq, Prod.mk.injEq] at h
    obtain ⟨-, -, rfl⟩ := h
    simp only [List.length_append, List.length_cons] at hc hs
    omega
  case h_3 c after _ heq =>
    rw [heq] at hs
    cases hn : splitNumber? (c :: after) with
    | some found =>
      obtain ⟨digits, r⟩ := found
      rw [hn] at h
      -- a number has at least one digit
      obtain ⟨ha, hne⟩ := splitNumber?_append hn
      have hl := congrArg List.length ha
      have hp := List.length_pos_iff.2 hne
      simp only [Option.some.injEq, Prod.mk.injEq] at h
      obtain ⟨-, -, rfl⟩ := h
      simp only [List.length_append, List.length_cons] at hl hs
      omega
    | none =>
      rw [hn] at h
      dsimp only at h
      simp only [List.length_cons] at hs
      repeat' split at h
      all_goals
        simp only [Option.some.injEq, Prod.mk.injEq] at h
        obtain ⟨-, -, rfl⟩ := h
        omega

theorem length_next? {mode mode' : Mode} {cs rest : List Char} {t : Token}
    (h : next? mode cs = some (t, mode', rest)) : rest.length < cs.length := by
  unfold next? at h
  by_cases hm : mode = .textOpen
  · rw [if_pos hm] at h
    rcases hs : splitText 0 false cs with ⟨_ | ⟨c, text⟩, r⟩ <;> rw [hs] at h
    · exact length_mathToken? h
    · have ht := congrArg List.length (splitText_append 0 false cs)
      rw [hs] at ht
      simp only [Option.some.injEq, Prod.mk.injEq] at h
      obtain ⟨-, -, rfl⟩ := h
      simp only [List.length_append, List.length_cons] at ht
      omega
  · rw [if_neg hm] at h
    exact length_mathToken? h

/-- All tokens from a mode on. -/
def scanFrom (mode : Mode) (cs : List Char) : List Token :=
  match _h : next? mode cs with
  | none => []
  | some (t, mode', rest) => t :: scanFrom mode' rest
termination_by cs.length
decreasing_by exact length_next? _h

end Lexer

/-- Cuts markup into tokens. -/
def Token.scan (markup : String) : List Token :=
  Lexer.scanFrom .math markup.toList

end MathMarkup
