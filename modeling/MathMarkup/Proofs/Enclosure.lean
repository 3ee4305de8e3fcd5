import MathMarkup.Proofs.Braces
import MathMarkup.Proofs.Layout
import MathMarkup.Proofs.Passage

/-!
# What stands in a group

`Parser.Enclosed` says of the tokens of a group, its closing brace included, that the parser finds
nothing in them that reaches beyond it: what begins as an environment ends in the same group, no
environment is open around a group that has begin or end commands of its own, and a brace behind a
text command opens a verbatim text. It goes along the tokens with a stack, one number for each open
group, the innermost first: how many environments are open in it.

Proofs go by `Parser.Inside`, the same as a relation between the tokens up to the end of the input,
the rest behind the group fixed. Skipping to a closing brace, passing a name and dropping tokens
that close what they open each take a few entries off the stack, and cutting a number changes
nothing.
-/

namespace MathMarkup

open MathMarkup.Lexer (leftBrace rightBrace)

namespace Parser

variable {ix : Index} {rest : List Token}

/-! ## Groups that hold what begins in them -/

/-- The name of an environment of the lexicon comes next. -/
def Names (ix : Index) (ts : List Token) : Prop :=
  ∃ name ∈ (environmentName ts).1, ix.environments name ≠ []

instance (ts : List Token) : Decidable (Names ix ts) :=
  inferInstanceAs (Decidable (∃ name ∈ (environmentName ts).1, ix.environments name ≠ []))

/-- If a brace comes next, then a whole name does. -/
def NamesIfBraced (ts : List Token) : Prop :=
  (∃ t ∈ ts.head?, t.raw = "\x7b") → (environmentName ts).1.isSome = true

instance (ts : List Token) : Decidable (NamesIfBraced ts) :=
  inferInstanceAs (Decidable (_ → _))

/-- If a brace comes next, then it opens a verbatim text, or nothing. -/
def HoldsText : List Token → Prop
  | left :: t :: _ => left.raw = "\x7b" → t.kind = .text ∨ t.kind = .closeGroup
  | _ => True

instance : (ts : List Token) → Decidable (HoldsText ts)
  | [] => inferInstanceAs (Decidable True)
  | [_] => inferInstanceAs (Decidable True)
  | _ :: _ :: _ => inferInstanceAs (Decidable (_ → _))

/-- Some tokens close the groups of the stack and end there. What begins as an environment ends in
its group, and there is none around a group that has begin or end commands; what ends an environment
has a whole name, if it has any; and a text command has a verbatim text, if it has any argument. -/
def Enclosed (ix : Index) : List Nat → List Token → Prop
  | [], ts => ts = []
  | _ :: _, [] => False
  | e :: below, t :: ts =>
    if t.kind = .openGroup then Enclosed ix (0 :: e :: below) ts
    else if t.kind = .closeGroup then e = 0 ∧ Enclosed ix below ts
    else if t = ⟨"\\begin", .command⟩ ∧ Names ix ts then
      (∀ d ∈ below, d = 0) ∧ Enclosed ix ((e + 1) :: below) ts
    else if t = ⟨"\\end", .command⟩ then
      (∀ d ∈ below, d = 0) ∧ (e ≠ 0 → NamesIfBraced ts) ∧ Enclosed ix ((e - 1) :: below) ts
    else
      (t.kind = .command → t.raw ∈ Token.textCommands → HoldsText ts) ∧ Enclosed ix (e :: below) ts

section Cons

variable {e : Nat} {below : List Nat} {t : Token} {ts : List Token}

/-- An opening brace begins a group of its own. -/
theorem enclosed_opens (ho : t.kind = .openGroup) :
    Enclosed ix (e :: below) (t :: ts) ↔ Enclosed ix (0 :: e :: below) ts := by
  rw [Enclosed, if_pos ho]

/-- A closing brace ends a group in which everything has ended. -/
theorem enclosed_closes (hc : t.kind = .closeGroup) :
    Enclosed ix (e :: below) (t :: ts) ↔ e = 0 ∧ Enclosed ix below ts := by
  rw [Enclosed, if_neg (by rw [hc]; decide), if_pos hc]

/-- A begin command counts if the lexicon knows the name, and is in no group of an environment. -/
theorem enclosed_begins (hb : t = ⟨"\\begin", .command⟩ ∧ Names ix ts) :
    Enclosed ix (e :: below) (t :: ts) ↔
      (∀ d ∈ below, d = 0) ∧ Enclosed ix ((e + 1) :: below) ts := by
  rw [Enclosed, if_neg (by rw [hb.1]; decide), if_neg (by rw [hb.1]; decide), if_pos hb]

/-- An end command ends an environment of its group, if there is one. -/
theorem enclosed_ends (he : t = ⟨"\\end", .command⟩) :
    Enclosed ix (e :: below) (t :: ts) ↔
      (∀ d ∈ below, d = 0) ∧ (e ≠ 0 → NamesIfBraced ts) ∧ Enclosed ix ((e - 1) :: below) ts := by
  rw [Enclosed, if_neg (by rw [he]; decide), if_neg (by rw [he]; decide),
    if_neg (fun hb => absurd (he.symm.trans hb.1) (by decide)), if_pos he]

/-- Other tokens change no group, and a text command needs its text. -/
theorem enclosed_other (ho : t.kind ≠ .openGroup) (hc : t.kind ≠ .closeGroup)
    (hb : ¬ (t = ⟨"\\begin", .command⟩ ∧ Names ix ts)) (he : t ≠ ⟨"\\end", .command⟩) :
    Enclosed ix (e :: below) (t :: ts) ↔
      (t.kind = .command → t.raw ∈ Token.textCommands → HoldsText ts) ∧
        Enclosed ix (e :: below) ts := by
  rw [Enclosed, if_neg ho, if_neg hc, if_neg hb, if_neg he]

end Cons

instance decidableEnclosed (ix : Index) :
    (stack : List Nat) → (ts : List Token) → Decidable (Enclosed ix stack ts)
  | [], ts => decidable_of_iff' (ts = []) (by rw [Enclosed])
  | _ :: _, [] => decidable_of_iff' False (by rw [Enclosed])
  | e :: below, t :: ts =>
    if ho : t.kind = .openGroup then
      have := decidableEnclosed ix (0 :: e :: below) ts
      decidable_of_iff' _ (enclosed_opens ho)
    else if hc : t.kind = .closeGroup then
      have := decidableEnclosed ix below ts
      decidable_of_iff' _ (enclosed_closes hc)
    else if hb : t = ⟨"\\begin", .command⟩ ∧ Names ix ts then
      have := decidableEnclosed ix ((e + 1) :: below) ts
      decidable_of_iff' _ (enclosed_begins hb)
    else if he : t = ⟨"\\end", .command⟩ then
      have := decidableEnclosed ix ((e - 1) :: below) ts
      decidable_of_iff' _ (enclosed_ends he)
    else
      have := decidableEnclosed ix (e :: below) ts
      decidable_of_iff' _ (enclosed_other ho hc hb he)

end Parser

/-! ## Rows of raw texts -/

namespace Token

/-- How many braces are open after tokens with some raw texts, given how many were before, or
nothing if some closing brace closes none. -/
def bracesAfter (depth : Nat) : List String → Option Nat
  | [] => some depth
  | raw :: raws =>
    if raw = "\x7b" then bracesAfter (depth + 1) raws
    else if raw = "\x7d" then
      match depth with
      | 0 => none
      | d + 1 => bracesAfter d raws
    else bracesAfter depth raws

/-- What is no brace changes no depth. -/
theorem bracesAfter_other {raw : String} (hl : raw ≠ "\x7b") (hr : raw ≠ "\x7d") (d : Nat)
    (raws : List String) : bracesAfter d (raw :: raws) = bracesAfter d raws :=
  (if_neg hl).trans (if_neg hr)

/-- Tokens with these raw texts close the groups that they open, begin and end no environment, and
are never cut. -/
structure Harmless (raws : List String) : Prop where
  boundless : Boundless raws
  balanced : bracesAfter 0 raws = some 0
  uncut : ∀ raw ∈ raws, raw.toList.all Char.isDigit = false

instance (raws : List String) : Decidable (Harmless raws) :=
  decidable_of_iff (Boundless raws ∧ bracesAfter 0 raws = some 0 ∧
      ∀ raw ∈ raws, raw.toList.all Char.isDigit = false)
    ⟨fun h => ⟨h.1, h.2.1, h.2.2⟩, fun h => ⟨h.1, h.2, h.3⟩⟩

end Token

namespace Parser

variable {ix : Index} {rest : List Token}

/-! ## The run over a group -/

/-- A token that opens and closes nothing, before some others. -/
structure Idle (ix : Index) (t : Token) (ts : List Token) : Prop where
  kinds : t.kind ≠ .openGroup ∧ t.kind ≠ .closeGroup
  raws : t.raw ≠ "\x7b" ∧ t.raw ≠ "\x7d"
  begins : t.raw = "\\begin" → ¬ Names ix ts
  ends : t ≠ ⟨"\\end", .command⟩
  verbatim : t.kind = .text → ts.head? = some rightBrace
  argument : t.kind = .command → t.raw ∈ Token.textCommands → HoldsText ts

/-- The tokens close the groups of the stack and go on with the rest behind them. -/
inductive Inside (ix : Index) (rest : List Token) : List Nat → List Token → Prop
  | done : Inside ix rest [] rest
  | opens {e : Nat} {below : List Nat} {ts : List Token} :
      Inside ix rest (0 :: e :: below) ts → Inside ix rest (e :: below) (leftBrace :: ts)
  | closes {below : List Nat} {ts : List Token} :
      Inside ix rest below ts → Inside ix rest (0 :: below) (rightBrace :: ts)
  | begins {e : Nat} {below : List Nat} {ts : List Token} :
      Names ix ts → (∀ d ∈ below, d = 0) → Inside ix rest ((e + 1) :: below) ts →
      Inside ix rest (e :: below) (⟨"\\begin", .command⟩ :: ts)
  | ends {e : Nat} {below : List Nat} {ts : List Token} :
      (∀ d ∈ below, d = 0) → (e ≠ 0 → NamesIfBraced ts) → Inside ix rest ((e - 1) :: below) ts →
      Inside ix rest (e :: below) (⟨"\\end", .command⟩ :: ts)
  | other {e : Nat} {below : List Nat} {t : Token} {ts : List Token} :
      Idle ix t ts → Inside ix rest (e :: below) ts → Inside ix rest (e :: below) (t :: ts)

section Inside

variable {e : Nat} {below stack : List Nat} {t : Token} {ts us : List Token}

/-- The rest is what comes behind the groups. -/
theorem Inside.exists_eq_append (h : Inside ix rest stack ts) : ∃ us, ts = us ++ rest := by
  induction h with
  | done => exact ⟨[], rfl⟩
  | opens _ ih | closes _ ih | begins _ _ _ ih | ends _ _ _ ih | other _ _ ih =>
    obtain ⟨us, rfl⟩ := ih
    exact ⟨_ :: us, rfl⟩

/-- With no group open, only the rest is left. -/
theorem Inside.eq_rest (h : Inside ix rest [] ts) : ts = rest := by
  cases h
  rfl

/-- An open group has tokens ahead. -/
theorem not_inside_nil : ¬ Inside ix rest (e :: below) [] :=
  nofun

/-- A token that is an opening brace by its text or by its kind is one by both. -/
theorem Inside.opened (h : Inside ix rest (e :: below) (t :: ts))
    (ht : t.raw = "\x7b" ∨ t.kind = .openGroup) :
    t = leftBrace ∧ Inside ix rest (0 :: e :: below) ts := by
  cases h with
  | opens h => exact ⟨rfl, h⟩
  | closes => exact absurd ht (by decide)
  | begins => exact absurd ht (by simp)
  | ends => exact absurd ht (by simp)
  | other hp => exact (ht.elim hp.raws.1 hp.kinds.1).elim

/-- So is a closing brace, and no environment is open in the group that it closes. -/
theorem Inside.closed (h : Inside ix rest (e :: below) (t :: ts))
    (ht : t.raw = "\x7d" ∨ t.kind = .closeGroup) :
    t = rightBrace ∧ e = 0 ∧ Inside ix rest below ts := by
  cases h with
  | opens => exact absurd ht (by decide)
  | closes h => exact ⟨rfl, rfl, h⟩
  | begins => exact absurd ht (by simp)
  | ends => exact absurd ht (by simp)
  | other hp => exact (ht.elim hp.raws.2 hp.kinds.2).elim

/-- A number opens and closes nothing, so the run goes on behind it. -/
theorem Inside.number (h : Inside ix rest (e :: below) (t :: ts)) (hk : t.kind = .number) :
    Inside ix rest (e :: below) ts := by
  cases h with
  | opens | closes | begins | ends => cases hk
  | other _ h => exact h

/-- Behind a text its closing brace comes, in the same groups. -/
theorem Inside.text (h : Inside ix rest (e :: below) (t :: ts)) (hk : t.kind = .text) :
    ts.head? = some rightBrace ∧ Inside ix rest (e :: below) ts := by
  cases h with
  | opens | closes | begins | ends => cases hk
  | other hp h => exact ⟨hp.verbatim hk, h⟩

/-- A text command has its text, if it has anything in braces. -/
theorem Inside.textCommand (h : Inside ix rest (e :: below) (t :: ts)) (hk : t.kind = .command)
    (hraw : t.raw ∈ Token.textCommands) : HoldsText ts ∧ Inside ix rest (e :: below) ts := by
  cases h with
  | opens | closes => cases hk
  | begins | ends => exact absurd hraw (by decide)
  | other hp h => exact ⟨hp.argument hk hraw, h⟩

/-- A begin command is one of an environment that ends in its group, or no name of one follows. -/
theorem Inside.begun (h : Inside ix rest (e :: below) (t :: ts)) (ht : t.raw = "\\begin") :
    Names ix ts ∧ Inside ix rest ((e + 1) :: below) ts ∨ ¬ Names ix ts := by
  cases h with
  | opens | closes | ends => exact absurd ht (by decide)
  | begins hn _ h => exact .inl ⟨hn, h⟩
  | other hp => exact .inr (hp.begins ht)

/-- Behind an end command one environment fewer is open, if there was one. -/
theorem Inside.ended (h : Inside ix rest (e :: below) (t :: ts)) (ht : t = ⟨"\\end", .command⟩) :
    (∀ d ∈ below, d = 0) ∧ (e ≠ 0 → NamesIfBraced ts) ∧ Inside ix rest ((e - 1) :: below) ts := by
  cases h with
  | opens | closes | begins => exact absurd ht (by decide)
  | ends hz hn h => exact ⟨hz, hn, h⟩
  | other hp => exact absurd ht hp.ends

/-- An idle token lengthens the span of a group by one. -/
theorem Idle.groupSpan (hp : Idle ix t us) (d : Nat) (ts : List Token) :
    groupSpan d (t :: ts) = ((groupSpan d ts).1 + 1, (groupSpan d ts).2) := by
  obtain ⟨raw, kind⟩ := t
  cases kind with
  | openGroup => exact absurd rfl hp.kinds.1
  | closeGroup => exact absurd rfl hp.kinds.2
  | command | number | text | char => rfl

/-- An idle token changes no depth of braces. -/
theorem Idle.openAfter (hp : Idle ix t us) (d : Nat) (ts : List Token) :
    Token.openAfter d (t :: ts) = Token.openAfter d ts := by
  obtain ⟨raw, kind⟩ := t
  cases kind with
  | openGroup => exact absurd rfl hp.kinds.1
  | closeGroup => exact absurd rfl hp.kinds.2
  | command | number | text | char => rfl

/-- An idle token is a part of the name of an environment. -/
theorem Idle.environmentNameFrom (hp : Idle ix t us) (name : String) (ts : List Token) :
    environmentNameFrom name (t :: ts) =
      ((environmentNameFrom (name ++ t.raw) ts).1,
        (environmentNameFrom (name ++ t.raw) ts).2 + 1) := by
  obtain ⟨raw, kind⟩ := t
  cases kind with
  | openGroup => exact absurd rfl hp.kinds.1
  | closeGroup => exact absurd rfl hp.kinds.2
  | command | number | text | char => rfl

/-- From the inside of `d + 1` groups of the stack there is a way to the end of the last of them. -/
theorem Inside.skip (h : Inside ix rest stack ts) {d : Nat} (hd : d < stack.length) :
    (groupSpan d ts).2 = true ∧
      Inside ix rest (stack.drop (d + 1)) (ts.drop (groupSpan d ts).1) := by
  -- on the run: a brace moves the depth that is counted and the stack by the same step
  induction h generalizing d with
  | done => exact absurd hd (Nat.not_lt_zero d)
  | opens _ ih => exact @ih (d + 1) (Nat.succ_lt_succ hd)
  | closes h ih =>
    cases d with
    | zero => exact ⟨rfl, h⟩
    | succ d => exact @ih d (Nat.lt_of_succ_lt_succ hd)
  | begins _ _ _ ih => exact ih hd
  | ends _ _ _ ih => exact ih hd
  | other hp _ ih =>
    rw [hp.groupSpan]
    exact ih hd

/-- Tokens that close `d` of the groups, and what they open themselves, lead to the inside of the
next one, unless there are begin and end commands among them. -/
theorem Inside.drop (h : Inside ix rest stack ts) {d k : Nat} (hd : d < stack.length)
    (hk : Token.openAfter d (ts.take k) = some 0) (hf : FrontClear k ts) :
    Inside ix rest (stack.drop d) (ts.drop k) := by
  -- where nothing is left to drop, `d` is zero and the run is the one at hand
  induction h generalizing d k with
  | done => exact absurd hd (Nat.not_lt_zero d)
  | @opens e below ts h ih =>
    cases k with
    | zero =>
      obtain rfl : d = 0 := Option.some.inj hk
      exact .opens h
    | succ k => exact @ih (d + 1) k (Nat.succ_lt_succ hd) hk (List.forall_mem_cons.1 hf).2
  | @closes below ts h ih =>
    cases k with
    | zero =>
      obtain rfl : d = 0 := Option.some.inj hk
      exact .closes h
    | succ k =>
      cases d with
      | zero => cases hk
      | succ d => exact @ih d k (Nat.lt_of_succ_lt_succ hd) hk (List.forall_mem_cons.1 hf).2
  | @begins e below ts hn hz h ih =>
    cases k with
    | zero =>
      obtain rfl : d = 0 := Option.some.inj hk
      exact .begins hn hz h
    | succ k => exact absurd ⟨rfl, Or.inl rfl⟩ (List.forall_mem_cons.1 hf).1
  | @ends e below ts hz hn h ih =>
    cases k with
    | zero =>
      obtain rfl : d = 0 := Option.some.inj hk
      exact .ends hz hn h
    | succ k => exact absurd ⟨rfl, Or.inr rfl⟩ (List.forall_mem_cons.1 hf).1
  | @other e below t ts hp h ih =>
    cases k with
    | zero =>
      obtain rfl : d = 0 := Option.some.inj hk
      exact .other hp h
    | succ k =>
      rw [List.take_succ_cons, hp.openAfter] at hk
      exact ih hd hk (List.forall_mem_cons.1 hf).2

/-- A name that ends, ends with the group that it stands in. -/
theorem Inside.of_nameFrom (h : Inside ix rest stack ts) (hne : stack ≠ [])
    {acc name : String} (hn : (environmentNameFrom acc ts).1 = some name) :
    Inside ix rest stack.tail (ts.drop (environmentNameFrom acc ts).2) := by
  induction h generalizing acc with
  | done => exact absurd rfl hne
  | opens => cases hn
  | closes h => exact h
  | begins _ _ _ ih => exact ih nofun hn
  | ends _ _ _ ih => exact ih nofun hn
  | other hp _ ih =>
    rw [hp.environmentNameFrom] at hn ⊢
    exact ih nofun hn

/-- A name in braces is passed as a whole. -/
theorem Inside.of_name (h : Inside ix rest (e :: below) ts) {name : String}
    (hn : (environmentName ts).1 = some name) :
    Inside ix rest (e :: below) (ts.drop (environmentName ts).2) := by
  cases ts with
  | nil => exact absurd h not_inside_nil
  | cons t ts =>
    by_cases ht : t.raw = "\x7b"
    · rw [Parser.environmentName, if_pos ht] at hn ⊢
      exact (h.opened (.inl ht)).2.of_nameFrom (List.cons_ne_nil _ _) hn
    · rw [Parser.environmentName, if_neg ht] at hn
      cases hn

/-- The same goes for a fixed row of raw texts, which says by itself what it opens and closes. -/
theorem Inside.drop_raws (h : Inside ix rest stack ts) {d : Nat} (hd : d < stack.length)
    {raws : List String} (hraws : Token.raws (ts.take raws.length) = raws)
    (hb : Token.Boundless raws) (hopen : Token.bracesAfter d raws = some 0) :
    Inside ix rest (stack.drop d) (ts.drop raws.length) := by
  induction raws generalizing stack ts d with
  | nil =>
    obtain rfl : d = 0 := Option.some.inj hopen
    exact h
  | cons raw raws ih =>
    cases ts with
    | nil => cases hraws
    | cons t ts =>
      obtain ⟨rfl, hlater⟩ := List.cons.inj hraws
      have hb' : Token.Boundless raws :=
        ⟨mt (List.mem_cons_of_mem _) hb.1, mt (List.mem_cons_of_mem _) hb.2⟩
      -- raw texts have no kinds, but the run says which of them are braces
      cases h with
      | done => exact absurd hd (Nat.not_lt_zero d)
      | opens h => exact ih h (Nat.succ_lt_succ hd) hlater hb' hopen
      | closes h =>
        cases d with
        | zero => cases hopen
        | succ d => exact ih h (Nat.lt_of_succ_lt_succ hd) hlater hb' hopen
      | begins => exact absurd List.mem_cons_self hb.1
      | ends => exact absurd List.mem_cons_self hb.2
      | other hp h =>
        rw [Token.bracesAfter_other hp.raws.1 hp.raws.2] at hopen
        exact ih h hd hlater hb' hopen

/-- So is what stands behind an end command: where no name does, none is begun. -/
theorem Inside.of_namesIfBraced (h : Inside ix rest (e :: below) ts)
    (hn : NamesIfBraced ts) : Inside ix rest (e :: below) (ts.drop (environmentName ts).2) := by
  cases hname : (environmentName ts).1 with
  | some name => exact h.of_name hname
  | none =>
    cases ts with
    | nil => exact absurd h not_inside_nil
    | cons t ts =>
      have ht : ¬ t.raw = "\x7b" := by
        intro ht
        have hsome := hn ⟨t, rfl, ht⟩
        rw [hname] at hsome
        cases hsome
      rw [Parser.environmentName, if_neg ht]
      exact h

end Inside

/-! ## Cuts inside of a group -/

section Cuts

variable {stack : List Nat} {t : Token} {ts us vs : List Token}

/-- Where a cut is made, the first token stays, or it is the number that is cut. -/
theorem cons_of_cutsOnce (h : Token.CutsOnce (t :: ts) us) :
    (∃ us', us = t :: us' ∧ Token.CutsOnce ts us') ∨
      ∃ first rest, (first ++ rest).toList.all Char.isDigit = true ∧
        t = ⟨first ++ rest, .number⟩ ∧ us = ⟨first, .number⟩ :: ⟨rest, .number⟩ :: ts := by
  obtain ⟨before, right, first, rest, hd, hts, rfl⟩ := h
  cases before with
  | nil =>
    obtain ⟨rfl, rfl⟩ := List.cons.inj hts
    exact Or.inr ⟨first, rest, hd, rfl, rfl⟩
  | cons b before =>
    obtain ⟨rfl, rfl⟩ := List.cons.inj hts
    exact Or.inl ⟨_, rfl, before, right, first, rest, hd, rfl, rfl⟩

/-- A cut in front of some tokens is one with them behind it. -/
theorem cutsOnce_append_right (h : Token.CutsOnce ts us) (rest : List Token) :
    Token.CutsOnce (ts ++ rest) (us ++ rest) := by
  obtain ⟨before, right, first, last, hd, rfl, rfl⟩ := h
  exact ⟨before, right ++ rest, first, last, hd, by simp, by simp⟩

/-- Both pieces of a row of digits are digits. -/
theorem all_isDigit_of_append {first rest : String}
    (h : (first ++ rest).toList.all Char.isDigit = true) :
    first.toList.all Char.isDigit = true ∧ rest.toList.all Char.isDigit = true := by
  rw [String.toList_append, List.all_append, Bool.and_eq_true] at h
  exact h

/-- The first token after a cut is the one before it, or a piece of the number that it was. -/
theorem head?_of_cutsOnce (h : Token.CutsOnce ts us) :
    us.head? = ts.head? ∨ ∃ first rest, (first ++ rest).toList.all Char.isDigit = true ∧
      ts.head? = some ⟨first ++ rest, .number⟩ ∧ us.head? = some ⟨first, .number⟩ := by
  cases us with
  | nil => exact absurd h not_cutsOnce_nil
  | cons u us =>
    rcases uncons_of_cutsOnce h with ⟨ts', rfl, -⟩ | ⟨first, rest, right, hd, rfl, -, rfl⟩
    · exact Or.inl rfl
    · exact Or.inr ⟨first, rest, hd, rfl, rfl⟩

/-- So if it is no number, it was there before. -/
theorem head?_before_cuts (hk : t.kind ≠ .number) (h : us.head? = some t) (hc : Token.Cuts ts us) :
    ts.head? = some t := by
  induction hc with
  | refl => exact h
  | tail _ hcut ih =>
    rcases head?_of_cutsOnce hcut with heq | ⟨first, rest, -, -, hus⟩
    · exact ih (heq.symm.trans h)
    · rw [← Option.some.inj (hus.symm.trans h)] at hk
      exact absurd rfl hk

/-- Cuts do not change whether an environment is named. -/
theorem names_iff_of_cutsOnce (h : Token.CutsOnce ts us) : Names ix us ↔ Names ix ts := by
  rw [Names, Names, (environmentName_of_cutsOnce h).1]

/-- Cuts do not change whether a name in braces is whole. -/
theorem NamesIfBraced.of_cutsOnce (hn : NamesIfBraced ts) (h : Token.CutsOnce ts us) :
    NamesIfBraced us := by
  rintro ⟨u, hu, hraw⟩
  rw [(environmentName_of_cutsOnce h).1]
  rcases head?_of_cutsOnce h with heq | ⟨first, rest, hd, -, hus⟩
  · exact hn ⟨u, heq ▸ hu, hraw⟩
  · obtain rfl := Option.some.inj (hus.symm.trans hu)
    exact absurd hraw (ne_of_all_isDigit (all_isDigit_of_append hd).1 (by decide))

/-- Cuts do not touch a text. -/
theorem HoldsText.of_cutsOnce (ht : HoldsText ts) (h : Token.CutsOnce ts us) : HoldsText us := by
  match us with
  | [] => trivial
  | [_] => trivial
  | left :: u :: us =>
    intro hraw
    rcases uncons_of_cutsOnce h with ⟨ts', rfl, hts⟩ | ⟨first, rest, right, hd, rfl, -, rfl⟩
    · rcases uncons_of_cutsOnce hts with ⟨ts'', rfl, -⟩ | ⟨first, rest, right, -, -, -, rfl⟩
      · exact ht hraw
      · -- no number stands behind the brace
        exact absurd (ht hraw) (by simp)
    · exact absurd hraw (ne_of_all_isDigit (all_isDigit_of_append hd).1 (by decide))

/-- Cuts behind an idle token leave it idle. -/
theorem Idle.of_cutsOnce (hp : Idle ix t ts) (h : Token.CutsOnce ts us) : Idle ix t us where
  kinds := hp.kinds
  raws := hp.raws
  begins hraw := mt (names_iff_of_cutsOnce h).1 (hp.begins hraw)
  ends := hp.ends
  verbatim hk := by
    rcases head?_of_cutsOnce h with heq | ⟨first, rest, -, hts, -⟩
    · exact heq.trans (hp.verbatim hk)
    · exact absurd (hts.symm.trans (hp.verbatim hk)) (by simp [rightBrace])
  argument hk hraw := (hp.argument hk hraw).of_cutsOnce h

/-- Digits are idle wherever they stand. -/
theorem idle_digits {raw : String} (h : raw.toList.all Char.isDigit = true) (ts : List Token) :
    Idle ix ⟨raw, .number⟩ ts where
  kinds := ⟨nofun, nofun⟩
  raws := ⟨ne_of_all_isDigit h (by decide), ne_of_all_isDigit h (by decide)⟩
  begins hraw := absurd hraw (ne_of_all_isDigit h (by decide))
  ends := by simp
  verbatim := nofun
  argument := nofun

/-- Cutting a number in a group leaves what stands in the group where it is. -/
theorem Inside.of_cutsOnce (h : Inside ix rest stack (ts ++ rest)) (hc : Token.CutsOnce ts us) :
    Inside ix rest stack (us ++ rest) := by
  induction ts generalizing stack us with
  | nil =>
    obtain ⟨before, right, first, last, -, hts, -⟩ := hc
    exact absurd hts (by simp)
  | cons t ts ih =>
    cases stack with
    | nil =>
      -- no group is open any more, so there is nothing left to cut
      have hlen := congrArg List.length h.eq_rest
      simp only [List.cons_append, List.length_cons, List.length_append] at hlen
      omega
    | cons e below =>
      rcases cons_of_cutsOnce hc with ⟨us', rfl, hcut⟩ | ⟨first, last, hd, ht, rfl⟩
      · have hfull := cutsOnce_append_right hcut rest
        cases h with
        | opens h => exact .opens (ih h hcut)
        | closes h => exact .closes (ih h hcut)
        | begins hn hz h => exact .begins ((names_iff_of_cutsOnce hfull).2 hn) hz (ih h hcut)
        | ends hz hn h => exact .ends hz (fun he => (hn he).of_cutsOnce hfull) (ih h hcut)
        | other hp h => exact .other (hp.of_cutsOnce hfull) (ih h hcut)
      · -- the pieces of the number are as idle as it was
        obtain ⟨hfirst, hlast⟩ := all_isDigit_of_append hd
        have hbehind : Inside ix rest (e :: below) (ts ++ rest) := h.number (by rw [ht])
        exact .other (idle_digits hfirst _) (.other (idle_digits hlast _) hbehind)

/-- Cuts within the groups leave the groups as they are. -/
theorem Inside.of_cuts (h : Inside ix rest stack (ts ++ rest)) (hc : Token.Cuts ts us) :
    Inside ix rest stack (us ++ rest) := by
  induction hc with
  | refl => exact h
  | tail _ hcut ih => exact ih.of_cutsOnce hcut

end Cuts

/-! ## Tokens of the lexer -/

/-- The text of a token agrees with its kind as far as the parser goes by either, and behind a text
there is only a closing brace. -/
def Fits (t : Token) (next : Option Token) : Prop :=
  match t.kind with
  | .openGroup => t.raw = "\x7b"
  | .closeGroup => t.raw = "\x7d"
  | .text => ∀ u ∈ next, u = rightBrace ∧ t.raw ≠ "\x7b" ∧ t.raw ≠ "\x7d"
  | .command => t.raw ≠ "\x7b" ∧ t.raw ≠ "\x7d"
  | .number | .char => t.raw ≠ "\x7b" ∧ t.raw ≠ "\x7d" ∧ t.raw ≠ "\\begin"

/-- Every token fits where it stands. -/
def Coherent : List Token → Prop
  | [] => True
  | t :: ts => Fits t ts.head? ∧ Coherent ts

section Lexer

variable {stack : List Nat} {t : Token} {ts us : List Token} {next : Option Token}

/-- Of the tokens of the lexer, only the brace opens a group. -/
theorem Fits.eq_leftBrace (h : Fits t next) (hk : t.kind = .openGroup) : t = leftBrace := by
  obtain ⟨raw, kind⟩ := t
  obtain rfl : kind = .openGroup := hk
  exact congrArg (Token.mk · TokenKind.openGroup) h

/-- Of the tokens of the lexer, only the brace closes a group. -/
theorem Fits.eq_rightBrace (h : Fits t next) (hk : t.kind = .closeGroup) : t = rightBrace := by
  obtain ⟨raw, kind⟩ := t
  obtain rfl : kind = .closeGroup := hk
  exact congrArg (Token.mk · TokenKind.closeGroup) h

/-- The tokens behind coherent ones are coherent. -/
theorem Coherent.of_append (h : Coherent (ts ++ us)) : Coherent us := by
  induction ts with
  | nil => exact h
  | cons t ts ih => exact ih h.2

/-- A name that ends in some tokens is not changed by those behind them. -/
theorem environmentNameFrom_append {name : String} (hc : ∃ u ∈ ts, u.kind = .closeGroup)
    (rest : List Token) : environmentNameFrom name (ts ++ rest) = environmentNameFrom name ts := by
  induction ts generalizing name with
  | nil =>
    obtain ⟨u, hu, -⟩ := hc
    cases hu
  | cons t ts ih =>
    rw [List.cons_append, environmentNameFrom, environmentNameFrom]
    split
    next => rfl
    next => rfl
    next hclose _ =>
      obtain ⟨u, hu, hk⟩ := hc
      rcases List.mem_cons.1 hu with rfl | hu
      · exact absurd hk hclose
      · rw [ih ⟨u, hu, hk⟩]

/-- The name of an environment that is closed in front of the rest does not depend on the rest. -/
theorem environmentName_append (hf : Coherent (ts ++ rest))
    (hc : ∃ u ∈ ts, u.kind = .closeGroup) :
    environmentName (ts ++ rest) = environmentName ts := by
  obtain ⟨u, hu, hk⟩ := hc
  cases ts with
  | nil => cases hu
  | cons t ts =>
    rw [List.cons_append, environmentName, environmentName]
    split
    next ht =>
      rcases List.mem_cons.1 hu with rfl | hu
      · rw [hf.1.eq_rightBrace hk] at ht
        exact absurd ht (by decide)
      · rw [environmentNameFrom_append ⟨u, hu, hk⟩]
    next => rfl

/-- Tokens that close an open group have a closing brace among them. -/
theorem Enclosed.exists_close {e : Nat} {below : List Nat} (h : Enclosed ix (e :: below) ts) :
    ∃ u ∈ ts, u.kind = .closeGroup := by
  induction ts generalizing e below with
  | nil =>
    rw [Enclosed] at h
    exact h.elim
  | cons t ts ih =>
    by_cases hc : t.kind = .closeGroup
    · exact ⟨t, List.mem_cons_self, hc⟩
    · -- the stack does not get shorter, so the group is still to be closed
      have hlater : ∃ d deeper, Enclosed ix (d :: deeper) ts := by
        by_cases ho : t.kind = .openGroup
        · exact ⟨_, _, (enclosed_opens ho).1 h⟩
        · by_cases hb : t = ⟨"\\begin", .command⟩ ∧ Names ix ts
          · exact ⟨_, _, ((enclosed_begins hb).1 h).2⟩
          · by_cases he : t = ⟨"\\end", .command⟩
            · exact ⟨_, _, ((enclosed_ends he).1 h).2.2⟩
            · exact ⟨_, _, ((enclosed_other ho hc hb he).1 h).2⟩
      obtain ⟨d, deeper, hlater⟩ := hlater
      obtain ⟨u, hu, hk⟩ := ih hlater
      exact ⟨u, List.mem_cons_of_mem _ hu, hk⟩

/-- A text that is held in front of the rest is held with the rest behind it. -/
theorem HoldsText.append (h : HoldsText ts) (hf : Coherent (ts ++ rest))
    (hc : ∃ u ∈ ts, u.kind = .closeGroup) : HoldsText (ts ++ rest) := by
  obtain ⟨u, hu, hk⟩ := hc
  match ts with
  | [] => cases hu
  | [left] =>
    -- the brace that closes the group opens nothing
    obtain rfl := List.mem_singleton.1 hu
    rw [hf.1.eq_rightBrace hk]
    cases rest with
    | nil => trivial
    | cons t rest => exact fun hraw => absurd hraw (by decide)
  | left :: t :: _ => exact h

/-- A name that is whole in front of the rest is whole with the rest behind it. -/
theorem NamesIfBraced.append (h : NamesIfBraced ts) (hf : Coherent (ts ++ rest))
    (hc : ∃ u ∈ ts, u.kind = .closeGroup) : NamesIfBraced (ts ++ rest) := by
  intro hbrace
  rw [environmentName_append hf hc]
  obtain ⟨u, hu, -⟩ := hc
  obtain ⟨v, vs, rfl⟩ := List.exists_cons_of_ne_nil (List.ne_nil_of_mem hu)
  exact h hbrace

/-- A token that is no brace and that the run over a group makes nothing of opens and closes
nothing. -/
theorem idle_of_fits (hf : Coherent (t :: (ts ++ rest)))
    (hc : ∃ u ∈ ts, u.kind = .closeGroup)
    (hopen : t.kind ≠ .openGroup) (hclose : t.kind ≠ .closeGroup)
    (hb : ¬ (t = ⟨"\\begin", .command⟩ ∧ Names ix ts)) (he : t ≠ ⟨"\\end", .command⟩)
    (ht : t.kind = .command → t.raw ∈ Token.textCommands → HoldsText ts) :
    Idle ix t (ts ++ rest) := by
  obtain ⟨raw, kind⟩ := t
  have hname : environmentName (ts ++ rest) = environmentName ts := environmentName_append hf.2 hc
  have hargument : kind = .command → raw ∈ Token.textCommands → HoldsText (ts ++ rest) :=
    fun hk hraw => (ht hk hraw).append hf.2 hc
  cases kind with
  | openGroup => exact absurd rfl hopen
  | closeGroup => exact absurd rfl hclose
  | command =>
    have hraws : raw ≠ "\x7b" ∧ raw ≠ "\x7d" := hf.1
    refine ⟨⟨nofun, nofun⟩, hraws, fun hraw hn => hb ⟨by rw [show raw = _ from hraw], ?_⟩, he,
      nofun, hargument⟩
    rwa [Names, hname] at hn
  | text =>
    obtain ⟨u, hu, -⟩ := hc
    obtain ⟨v, vs, rfl⟩ := List.exists_cons_of_ne_nil (List.ne_nil_of_mem hu)
    obtain ⟨rfl, hraws⟩ := hf.1 v rfl
    refine ⟨⟨nofun, nofun⟩, hraws, fun _ hn => ?_, he, fun _ => rfl, nofun⟩
    -- a closing brace begins no name
    obtain ⟨name, hname, -⟩ := hn
    cases hname
  | number | char =>
    obtain ⟨hleft, hright, hbegin⟩ := hf.1
    exact ⟨⟨nofun, nofun⟩, ⟨hleft, hright⟩, fun hraw => absurd hraw hbegin, he, nofun, nofun⟩

/-- What is enclosed stands inside of its groups, whatever comes behind. -/
theorem inside_of_enclosed (hf : Coherent (ts ++ rest)) (h : Enclosed ix stack ts) :
    Inside ix rest stack (ts ++ rest) := by
  induction ts generalizing stack with
  | nil =>
    cases stack with
    | nil => exact .done
    | cons e below =>
      rw [Enclosed] at h
      exact h.elim
  | cons t ts ih =>
    cases stack with
    | nil =>
      rw [Enclosed] at h
      cases h
    | cons e below =>
      by_cases ho : t.kind = .openGroup
      · rw [hf.1.eq_leftBrace ho]
        exact .opens (ih hf.2 ((enclosed_opens ho).1 h))
      · by_cases hc : t.kind = .closeGroup
        · obtain ⟨rfl, hbelow⟩ := (enclosed_closes hc).1 h
          rw [hf.1.eq_rightBrace hc]
          exact .closes (ih hf.2 hbelow)
        · by_cases hb : t = ⟨"\\begin", .command⟩ ∧ Names ix ts
          · obtain ⟨hz, hlater⟩ := (enclosed_begins hb).1 h
            -- the name ends before the group does, whatever comes behind the group
            have hn : Names ix (ts ++ rest) := by
              rw [Names, environmentName_append hf.2 hlater.exists_close]
              exact hb.2
            rw [hb.1]
            exact .begins hn hz (ih hf.2 hlater)
          · by_cases he : t = ⟨"\\end", .command⟩
            · obtain ⟨hz, hn, hlater⟩ := (enclosed_ends he).1 h
              rw [he]
              exact .ends hz (fun hne => (hn hne).append hf.2 hlater.exists_close) (ih hf.2 hlater)
            · obtain ⟨ht, hlater⟩ := (enclosed_other ho hc hb he).1 h
              exact .other (idle_of_fits hf hlater.exists_close ho hc hb he ht) (ih hf.2 hlater)

/-- A token whose text has the shape of its kind fits wherever it stands, unless it is a text. -/
theorem fits_of_shaped {cs : List Char} (h : t.Shaped cs) (hk : t.kind ≠ .text) : Fits t next := by
  obtain ⟨raw, kind⟩ := t
  cases kind with
  | text => exact absurd rfl hk
  | openGroup => exact h
  | closeGroup => exact h
  | command =>
    obtain ⟨name, hraw, -⟩ := h
    constructor
    all_goals
      rintro rfl
      exact absurd (List.cons.inj hraw).1 (by decide)
  | number =>
    -- each of the three has a character that no number has
    have hne : ∀ s : String, (∃ c ∈ s.toList, ¬ (c.isDigit = true ∨ c = '.')) → raw ≠ s := by
      rintro _ ⟨c, hc, hno⟩ rfl
      exact hno (h.chars c hc)
    exact ⟨hne _ ⟨'{', by decide⟩, hne _ ⟨'}', by decide⟩, hne _ ⟨'b', by decide⟩⟩
  | char =>
    obtain ⟨c, hraw, hc⟩ := h
    have hspecial := hc.special
    refine ⟨?_, ?_, ?_⟩
    all_goals rintro rfl
    · obtain rfl : '{' = c := (List.cons.inj hraw).1
      exact hspecial (by decide)
    · obtain rfl : '}' = c := (List.cons.inj hraw).1
      exact hspecial (by decide)
    · exact absurd (congrArg List.length hraw) (by rw [List.length_singleton]; decide)

/-- Behind a text there is the brace that closes its group, or nothing. -/
theorem fits_text {before : List Token} {raw : String} {cs : List Char}
    (h : Lexer.TextRun 0 false raw.toList cs) (hl : Lexer.Lays (⟨raw, .text⟩ :: before) cs ts) :
    Fits ⟨raw, .text⟩ ts.head? := by
  have hmode : Lexer.Mode.Behind .math (⟨raw, .text⟩ :: before) :=
    ⟨⟨nofun, fun h => nomatch h.1⟩, ⟨nofun, fun h => nomatch h.1⟩⟩
  have hts := Lexer.scanFrom_of_lays hl hmode
  intro u hu
  rcases h.closed with rfl | ⟨⟨after, rfl⟩, hcount⟩
  · rw [← hts, Lexer.scanFrom_nil] at hu
    cases hu
  · have hnext : Lexer.next? .math ('}' :: after) = some (rightBrace, .math, after) :=
      Lexer.mathToken?_rightBrace after
    rw [← hts, Lexer.scanFrom_of_next hnext] at hu
    refine ⟨(Option.some.inj hu).symm, ?_, ?_⟩
    · rintro rfl
      exact absurd hcount (by decide)
    · rintro rfl
      exact absurd (h.nested _ (List.prefix_refl _)) (by decide)

/-- What lies in some markup is coherent. -/
theorem coherent_of_lays {before : List Token} {cs : List Char} (h : Lexer.Lays before cs ts) :
    Coherent ts := by
  induction h with
  | nil => trivial
  | @cons before gap t rest ts hs hlays ih =>
    refine ⟨?_, ih⟩
    by_cases hk : t.kind = .text
    · obtain ⟨raw, kind⟩ := t
      obtain rfl : kind = .text := hk
      exact fits_text hs.shape hlays
    · exact fits_of_shaped hs.shape hk

/-- The tokens of any markup are coherent. -/
theorem coherent_scan (markup : String) : Coherent (Token.scan markup) :=
  coherent_of_lays (Lexer.lays_scanFrom Lexer.Mode.behind_nil markup.toList)

/-- Only a text asks for what comes next. -/
theorem Fits.of_next {next' : Option Token} (h : Fits t next)
    (hn : t.kind = .text → ∀ u ∈ next', u ∈ next) : Fits t next' := by
  obtain ⟨raw, kind⟩ := t
  cases kind with
  | text => exact fun u hu => h u (hn rfl u hu)
  | command | number | openGroup | closeGroup | char => exact h

/-- Dropping spacing puts nothing else behind a text: the brace there is no spacing. -/
theorem Coherent.dropSpacing (h : Coherent ts) (last : Option Token) :
    Coherent (dropSpacing last ts) := by
  induction ts generalizing last with
  | nil => trivial
  | cons t ts ih =>
    rw [Parser.dropSpacing]
    split
    · exact ih h.2 last
    · refine ⟨h.1.of_next fun hk => ?_, ih h.2 _⟩
      obtain ⟨raw, kind⟩ := t
      obtain rfl : kind = .text := hk
      cases ts with
      | nil => exact fun u hu => absurd hu (Option.not_mem_none u)
      | cons v vs =>
        obtain ⟨rfl, -⟩ := h.1 v rfl
        exact fun u hu => hu

/-- Digits fit wherever they stand. -/
theorem fits_digits {raw : String} (h : raw.toList.all Char.isDigit = true) :
    Fits ⟨raw, .number⟩ next :=
  ⟨ne_of_all_isDigit h (by decide), ne_of_all_isDigit h (by decide),
    ne_of_all_isDigit h (by decide)⟩

/-- A cut leaves tokens coherent. -/
theorem Coherent.of_cutsOnce (h : Coherent ts) (hc : Token.CutsOnce ts us) : Coherent us := by
  induction ts generalizing us with
  | nil =>
    obtain ⟨before, right, first, last, -, hts, -⟩ := hc
    exact absurd hts (by simp)
  | cons t ts ih =>
    rcases cons_of_cutsOnce hc with ⟨us', rfl, hcut⟩ | ⟨first, last, hd, rfl, rfl⟩
    · refine ⟨h.1.of_next fun hk u hu => ?_, ih h.2 hcut⟩
      rcases head?_of_cutsOnce hcut with heq | ⟨first, last, -, hts, -⟩
      · exact heq ▸ hu
      · -- no number stands behind a text
        obtain ⟨raw, kind⟩ := t
        obtain rfl : kind = .text := hk
        obtain ⟨hbrace, -⟩ := h.1 _ hts
        cases congrArg Token.kind hbrace
    · obtain ⟨hfirst, hlast⟩ := all_isDigit_of_append hd
      exact ⟨fits_digits hfirst, fits_digits hlast, h.2⟩

/-- Cuts leave tokens coherent. -/
theorem Coherent.of_cuts (h : Coherent ts) (hc : Token.Cuts ts us) : Coherent us := by
  induction hc with
  | refl => exact h
  | tail _ hcut ih => exact ih.of_cutsOnce hcut

end Lexer

end Parser
end MathMarkup
