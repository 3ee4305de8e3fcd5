import Mathlib.Logic.Relation
import MathMarkup.Parser.Recovery

/-!
# What no step of a parse loses

A parser may go back and forth in its buffer, and the argument of a command may cut the first digit
off a number, but no step loses, adds or reorders markup, and every step leaves the nesting depth as
it found it. `Parser.Follows p q` collects what holds between the state before a step and the state
after it:

* the buffer after it comes from the one before by cutting number tokens in two (`Token.Splits`);
* the depth is the same, and the largest depth stays within `Nested.maxDepth`;
* the mark for too deep nesting, once set, stays set, and it is set at the limit only.

`Reading.Conserves` says it of a reading at a level of nesting. It is closed under sequencing, so
it passes from the primitive moves to every function of the parser, one lemma for each, and up the
levels of `Nested.atDepth` by induction (`Nested.conserves_atDepth`). A custom routine is a sequence
of requests, so nothing has to be assumed of it.
-/

namespace MathMarkup

/-! ## Cutting number tokens -/

/-- One number token is cut in two. -/
def Token.SplitsOnce (before after : List Token) : Prop :=
  ∃ left right first rest, first ≠ "" ∧ rest ≠ "" ∧
    before = left ++ ⟨first ++ rest, .number⟩ :: right ∧
    after = left ++ ⟨first, .number⟩ :: ⟨rest, .number⟩ :: right

/-- Some number tokens are cut into several. -/
def Token.Splits : List Token → List Token → Prop :=
  Relation.ReflTransGen Token.SplitsOnce

/-- The text of some tokens without anything between them. -/
def Token.text (tokens : List Token) : String :=
  String.join (Token.raws tokens)

/-- The weight of two runs of tokens is the sum of their weights. -/
theorem tokensWeight_append (ts us : List Token) :
    tokensWeight (ts ++ us) = tokensWeight ts + tokensWeight us := by
  induction ts with
  | nil => simp [tokensWeight]
  | cons t ts ih => simp only [List.cons_append, tokensWeight, ih]; omega

/-- Every token weighs at least one, so the weight bounds the number of tokens. -/
theorem length_le_tokensWeight (ts : List Token) : ts.length ≤ tokensWeight ts := by
  induction ts with
  | nil => exact Nat.le_refl _
  | cons t ts ih =>
    have := t.weight_pos
    simp only [List.length_cons, tokensWeight]
    omega

theorem utf8ByteSize_pos {s : String} (h : s ≠ "") : 0 < s.utf8ByteSize := by
  rcases Nat.eq_zero_or_pos s.utf8ByteSize with h0 | h0
  · exact absurd (String.utf8ByteSize_eq_zero_iff.1 h0) h
  · exact h0

/-- A cut takes no byte from a number, so the weight, which counts bytes, stays. -/
theorem Token.SplitsOnce.weight {ts us : List Token} (h : Token.SplitsOnce ts us) :
    tokensWeight us = tokensWeight ts := by
  obtain ⟨left, right, first, rest, hf, hr, rfl, rfl⟩ := h
  have h₁ := utf8ByteSize_pos hf
  have h₂ := utf8ByteSize_pos hr
  simp only [tokensWeight_append, tokensWeight, Token.weight, String.utf8ByteSize_append]
  omega

/-- One cut makes one more token. -/
theorem Token.SplitsOnce.length {ts us : List Token} (h : Token.SplitsOnce ts us) :
    us.length = ts.length + 1 := by
  obtain ⟨left, right, first, rest, -, -, rfl, rfl⟩ := h
  simp only [List.length_append, List.length_cons]
  omega

/-- The text without the borders between tokens does not show where a number was cut. -/
theorem Token.SplitsOnce.text {ts us : List Token} (h : Token.SplitsOnce ts us) :
    Token.text us = Token.text ts := by
  obtain ⟨left, right, first, rest, -, -, rfl, rfl⟩ := h
  simp [Token.text, Token.raws, String.append_assoc]

/-- Cutting tokens changes nothing about what they weigh together. -/
theorem Token.Splits.weight {ts us : List Token} (h : Token.Splits ts us) :
    tokensWeight us = tokensWeight ts := by
  induction h with
  | refl => rfl
  | tail _ hs ih => rw [hs.weight, ih]

/-- Cutting tokens never makes a list of them shorter. -/
theorem Token.Splits.length_le {ts us : List Token} (h : Token.Splits ts us) :
    ts.length ≤ us.length := by
  induction h with
  | refl => exact Nat.le_refl _
  | tail _ hs ih => rw [hs.length]; omega

/-- Cutting tokens changes nothing about the text they spell. -/
theorem Token.Splits.text {ts us : List Token} (h : Token.Splits ts us) :
    Token.text us = Token.text ts := by
  induction h with
  | refl => rfl
  | tail _ hs ih => rw [hs.text, ih]

namespace Parser

/-! ## The cursor -/

/-- What is read and what lies ahead make up the buffer. -/
theorem length_tokens (p : Parser) : p.tokens.length = p.index + p.ahead.length := by
  simp [tokens, index]

/-- The cursor is within the buffer. -/
theorem index_le_length (p : Parser) : p.index ≤ p.tokens.length := by
  rw [length_tokens]; omega

/-- The cursor is within the weight of the buffer too, which no cut changes. -/
theorem index_le_weight (p : Parser) : p.index ≤ tokensWeight p.tokens :=
  Nat.le_trans p.index_le_length (length_le_tokensWeight _)

/-- The cursor moves on by what it is told to, or to the end of the buffer. -/
theorem index_advance (k : Nat) (p : Parser) :
    (p.advance k).index = p.index + min k p.ahead.length := by
  simp only [index, advance, List.length_append, List.length_reverse, List.length_take]
  omega

/-- Going back stops at the start of the buffer. -/
theorem index_retreat (k : Nat) (p : Parser) : (p.retreat k).index = p.index - k := by
  simp only [index, retreat, List.length_drop]

/-- A cursor set behind the end of the buffer stands at its end. -/
theorem index_seek (i : Nat) (p : Parser) : (p.seek i).index = min i p.tokens.length := by
  have hl := p.length_tokens
  unfold seek
  split
  · rw [index_retreat]; omega
  · rw [index_advance]; omega

/-! ## What holds between two states -/

/-- The state is that of a reading with a number of levels of nesting left. -/
structure AtLevel (n : Nat) (p : Parser) : Prop where
  levels : p.depth + n = Nested.maxDepth
  deepest : p.depth ≤ p.deepest

/-- The level below starts at the depth one more. -/
theorem AtLevel.enter {n : Nat} {p : Parser} (h : p.AtLevel (n + 1)) : p.enter.AtLevel n where
  levels := by
    have := h.levels
    show p.depth + 1 + n = Nested.maxDepth
    omega
  deepest := Nat.le_max_right _ _

/-- The second state can come after the first one in a parse. -/
structure Follows (p q : Parser) : Prop where
  splits : Token.Splits p.tokens q.tokens
  depth : q.depth = p.depth
  deepest : p.deepest ≤ q.deepest
  bounded : p.deepest ≤ Nested.maxDepth → q.deepest ≤ Nested.maxDepth
  sticky : p.tooDeep = true → q.tooDeep = true
  reached : q.tooDeep = true → p.tooDeep = true ∨ Nested.maxDepth ≤ q.deepest

/-- A state follows itself: doing nothing loses nothing. -/
theorem follows_refl (p : Parser) : Follows p p :=
  ⟨.refl, rfl, Nat.le_refl _, id, id, Or.inl⟩

/-- Steps in a row are a step: what holds between the states is passed on. -/
theorem Follows.trans {p q r : Parser} (h₁ : Follows p q) (h₂ : Follows q r) : Follows p r where
  splits := Relation.ReflTransGen.trans h₁.splits h₂.splits
  depth := h₂.depth.trans h₁.depth
  deepest := Nat.le_trans h₁.deepest h₂.deepest
  bounded := fun h => h₂.bounded (h₁.bounded h)
  sticky := fun h => h₂.sticky (h₁.sticky h)
  reached := by
    intro h
    rcases h₂.reached h with hq | hr
    · rcases h₁.reached hq with hp | hq
      · exact Or.inl hp
      · exact Or.inr (Nat.le_trans hq h₂.deepest)
    · exact Or.inr hr

/-- A step ends on the level it began on. -/
theorem Follows.atLevel {p q : Parser} {n : Nat} (h : Follows p q) (hp : p.AtLevel n) :
    q.AtLevel n :=
  ⟨by rw [h.depth]; exact hp.levels, by rw [h.depth]; exact Nat.le_trans hp.deepest h.deepest⟩

/-- Consuming something lowers the slack. -/
theorem Follows.slack_lt {p q : Parser} (h : Follows p q) (hi : p.index < q.index) :
    q.slack < p.slack := by
  have hw := h.splits.weight
  have hq := q.index_le_weight
  unfold slack
  omega

/-- A change to the buffer alone. -/
theorem follows_of_splits {p q : Parser} (hs : Token.Splits p.tokens q.tokens)
    (hd : q.depth = p.depth) (hm : q.deepest = p.deepest) (ht : q.tooDeep = p.tooDeep) :
    Follows p q where
  splits := hs
  depth := hd
  deepest := Nat.le_of_eq hm.symm
  bounded := fun h => by rw [hm]; exact h
  sticky := fun h => by rw [ht]; exact h
  reached := fun h => Or.inl (by rw [← ht]; exact h)

/-- Moving on leaves the buffer alone. -/
theorem follows_advance (k : Nat) (p : Parser) : Follows p (p.advance k) :=
  follows_of_splits (by rw [tokens_advance]; exact .refl) rfl rfl rfl

/-- Setting the cursor leaves the buffer alone, wherever it is set. -/
theorem follows_seek (i : Nat) (p : Parser) : Follows p (p.seek i) := by
  refine follows_of_splits (by rw [tokens_seek]; exact .refl) ?_ ?_ ?_
  all_goals
    unfold seek
    split <;> rfl

end Parser

namespace Reading

open MathMarkup.Parser (AtLevel Follows follows_refl follows_advance follows_seek
  follows_of_splits)

variable {α β : Type} {n : Nat}

/-- Readings in a row: the second one starts in the state that the first one leaves. -/
theorem bind_apply (r : Reading α) (f : α → Reading β) (p : Parser) :
    (r >>= f) p = f (r p).1 (r p).2 := rfl

/-- Looking at the next token does not move the cursor. -/
theorem peek_bind_apply (f : Option Token → Reading α) (p : Parser) :
    (peek >>= f) p = f p.ahead.head? p := rfl

/-- Looking at the state does not change it. -/
theorem get_bind_apply (f : Parser → Reading α) (p : Parser) :
    ((get : Reading Parser) >>= f) p = f p p := rfl

theorem pure_apply (a : α) (p : Parser) : (pure a : Reading α) p = (a, p) := rfl

/-- A reading that conserves the buffer and the depth, with a number of levels of nesting left. -/
def Conserves (n : Nat) (r : Reading α) : Prop :=
  ∀ p : Parser, p.AtLevel n → Follows p (r p).2

/-- A conserving reading ends on the level it began on. -/
theorem Conserves.atLevel {r : Reading α} (h : Conserves n r) {p : Parser} (hp : p.AtLevel n) :
    (r p).2.AtLevel n :=
  (h p hp).atLevel hp

/-- A reading that leaves the state as it is conserves it. -/
theorem conserves_of_state {r : Reading α} (h : ∀ p, (r p).2 = p) : Conserves n r := by
  intro p _
  rw [h p]
  exact follows_refl p

theorem conserves_pure (a : α) : Conserves n (pure a : Reading α) :=
  conserves_of_state fun _ => rfl

/-- Conserving readings in a row conserve. -/
theorem conserves_bind {r : Reading α} {f : α → Reading β} (hr : Conserves n r)
    (hf : ∀ a, Conserves n (f a)) : Conserves n (r >>= f) := by
  intro p hp
  exact (hr p hp).trans (hf _ _ (hr.atLevel hp))

theorem conserves_get : Conserves n (get : Reading Parser) :=
  conserves_of_state fun _ => rfl

/-- A change of the state conserves if each state follows the one it is made of. -/
theorem conserves_modify {f : Parser → Parser} (h : ∀ p, Follows p (f p)) :
    Conserves n (modify f : Reading Unit) :=
  fun p _ => h p

theorem conserves_index : Conserves n index := conserves_of_state fun _ => rfl

theorem conserves_peek : Conserves n peek := conserves_of_state fun _ => rfl

theorem conserves_atEnd : Conserves n atEnd := conserves_of_state fun _ => rfl

theorem conserves_upcoming : Conserves n upcoming := conserves_of_state fun _ => rfl

/-- Setting the cursor conserves, so a reading may return to any place it has been at. -/
theorem conserves_seek (i : Nat) : Conserves n (seek i) :=
  conserves_modify (follows_seek i)

theorem conserves_advance (k : Nat) : Conserves n (advance k) :=
  conserves_modify (follows_advance k)

/-- Taking the next token moves the cursor alone. -/
theorem conserves_next : Conserves n next :=
  conserves_bind conserves_peek fun t =>
    conserves_bind (conserves_advance 1) fun _ => conserves_pure t

/-- Tokens that match are taken, and others stay. -/
theorem conserves_advanceIf (c : Prop) [Decidable c] (k : Nat) :
    Conserves n (if c then do advance k; return true else return false) := by
  split
  · exact conserves_bind (conserves_advance _) fun _ => conserves_pure _
  · exact conserves_pure _

/-- Matching spellings moves the cursor alone. -/
theorem conserves_matchTokens (raws : List String) : Conserves n (matchTokens raws) :=
  conserves_bind conserves_get fun _ => conserves_advanceIf _ _

theorem conserves_matchToken (raw : String) : Conserves n (matchToken raw) := by
  refine conserves_bind conserves_peek fun t => ?_
  cases t with
  | none => exact conserves_pure _
  | some t => exact conserves_advanceIf _ _

/-- The command that ends a group closes it only in front of its bracket, and both are passed. -/
theorem conserves_matchCloseGroup : Conserves n matchCloseGroup := by
  refine conserves_bind conserves_peek fun t => ?_
  cases t with
  | none => exact conserves_pure _
  | some t => exact conserves_advanceIf _ _

theorem conserves_warn (w : Warning) : Conserves n (warn w) :=
  conserves_modify fun _ => follows_of_splits .refl rfl rfl rfl

theorem conserves_takeWarnings : Conserves n takeWarnings := by
  refine conserves_bind conserves_get fun p => ?_
  exact conserves_bind (conserves_modify fun _ => follows_of_splits .refl rfl rfl rfl)
    fun _ => conserves_pure _

/-- An error is an expression that is made, not markup that is lost. -/
theorem conserves_error (code : ErrorCode) (arg : Option String) (start : Nat) :
    Conserves n (error code arg start) := conserves_of_state fun _ => rfl

/-- A reading that is taken back when it fails conserves if it conserves when it succeeds. -/
theorem conserves_rewinding {step : Reading (Option α)} (h : Conserves n step) :
    Conserves n (rewinding step) := by
  refine conserves_bind conserves_index fun start => conserves_bind h fun o => ?_
  split
  · exact conserves_pure _
  · exact conserves_bind (conserves_seek _) fun _ => conserves_pure _

/-- Trying alternatives conserves if each of them does, taken back or not. -/
theorem conserves_firstOf {alternative : α → Reading (Option β)} {as : List α}
    (h : ∀ a ∈ as, Conserves n (alternative a)) : Conserves n (firstOf alternative as) := by
  induction as with
  | nil => exact conserves_pure _
  | cons a as ih =>
    refine conserves_bind (h a (List.mem_cons_self ..)) fun o => ?_
    split
    · exact conserves_pure _
    · exact ih fun a ha => h a (List.mem_cons_of_mem _ ha)

/-- A round is the last one of a loop, whether it says so or stays where it is, or the loop goes on
with what the round has left. The induction is on the slack, which the loop itself checks. -/
theorem loop_induction (round : α → Reading (α × Bool)) {motive : α → Parser → Prop}
    (last : ∀ a p b again q, round a p = ((b, again), q) → loop round a p = (b, q) → motive a p)
    (again : ∀ a p b q, round a p = ((b, true), q) → loop round a p = loop round b q →
      motive b q → motive a p) (a : α) (p : Parser) : motive a p := by
  induction hs : p.slack using Nat.strongRecOn generalizing a p with
  | ind k ih =>
    rcases hr : round a p with ⟨⟨b, more⟩, q⟩
    cases more with
    | false =>
      refine last a p b false q hr ?_
      rw [loop, hr]
    | true =>
      by_cases hlt : q.slack < p.slack
      · refine again a p b q hr ?_ (ih q.slack (hs ▸ hlt) b q rfl)
        rw [loop, hr]
        exact if_pos hlt
      · refine last a p b true q hr ?_
        rw [loop, hr]
        exact if_neg hlt

/-- A loop conserves what each round conserves. -/
theorem conserves_loop {round : α → Reading (α × Bool)} (h : ∀ a, Conserves n (round a)) (a : α) :
    Conserves n (loop round a) := by
  intro p hp
  induction a, p using loop_induction round with
  | last a p b again q heq hloop =>
    have hf := h a p hp
    rw [heq] at hf
    rw [hloop]
    exact hf
  | again a p b q heq hloop ih =>
    have hf := h a p hp
    rw [heq] at hf
    rw [hloop]
    exact hf.trans (ih (hf.atLevel hp))

end Reading
/-! ## The functions of the parser -/

/-- Readers that conserve the buffer and the depth. -/
structure Nested.Conserves (n : Nat) (inner : Nested) : Prop where
  expression : ∀ min, Reading.Conserves n (inner.expression min)
  primary : ∀ min, Reading.Conserves n (inner.primary min)

namespace Parser

open Reading

variable {n : Nat} {inner : Nested}

/-- Skipping to the end of a group passes tokens and keeps them in the buffer. -/
theorem conserves_skipToCloseGroup (start : Nat) (body : Option Expr) :
    Conserves n (skipToCloseGroup start body) := by
  refine conserves_bind conserves_get fun p => ?_
  refine conserves_bind (conserves_advance _) fun _ => ?_
  split
  · exact conserves_pure _
  · exact conserves_bind (conserves_error _ _ _) fun _ => conserves_pure _

/-- A group in braces conserves what the expression inside does. -/
theorem conserves_braceGroup (hi : inner.Conserves n) : Conserves n (braceGroup inner) := by
  refine conserves_bind conserves_index fun start => ?_
  refine conserves_bind (conserves_advance 1) fun _ => ?_
  refine conserves_bind conserves_matchCloseGroup fun closed => ?_
  split
  · exact conserves_pure _
  · refine conserves_bind (hi.expression _) fun body => ?_
    refine conserves_bind conserves_matchCloseGroup fun closed => ?_
    split
    · exact conserves_pure _
    · exact conserves_skipToCloseGroup start body

/-- A group in brackets of any kind conserves. -/
theorem conserves_group (hi : inner.Conserves n) : Conserves n (group inner) := by
  refine conserves_bind conserves_peek fun t => ?_
  split
  · split
    · exact conserves_bind (conserves_braceGroup hi) fun _ => conserves_pure _
    · exact conserves_pure _
  · exact conserves_pure _

/-- The two parts of a number whose first digit is taken spell it together. -/
theorem splitDigit?_eq_some {t : Token} {first rest : String}
    (h : splitDigit? t = some (first, rest)) :
    t = ⟨first ++ rest, .number⟩ ∧ first ≠ "" ∧ rest ≠ "" := by
  obtain ⟨raw, kind⟩ := t
  unfold splitDigit? at h
  by_cases hc : kind = .number ∧ raw.toList.all Char.isDigit = true
  · rw [if_pos hc] at h
    rcases heq : raw.toList with _ | ⟨a, _ | ⟨b, cs⟩⟩ <;> rw [heq] at h
    · cases h
    · cases h
    · simp only [Option.some.injEq, Prod.mk.injEq] at h
      obtain ⟨rfl, rfl⟩ := h
      refine ⟨?_, by simp, by simp⟩
      obtain ⟨rfl, -⟩ := hc
      rw [← String.ofList_append, List.singleton_append, ← heq, String.ofList_toList]
  · rw [if_neg hc] at h
    cases h

/-- Taking the first digit off the number at the cursor cuts that number in two. -/
theorem follows_takeDigit {p : Parser} {t : Token} {first rest : String}
    (hp : p.ahead.head? = some t) (h : splitDigit? t = some (first, rest)) :
    Follows p (takeDigit first rest p).2 := by
  obtain ⟨rfl, hf, hr⟩ := splitDigit?_eq_some h
  obtain ⟨us, hus⟩ : ∃ us, p.ahead = ⟨first ++ rest, .number⟩ :: us := by
    cases ha : p.ahead with
    | nil => rw [ha] at hp; simp at hp
    | cons u us =>
      rw [ha, List.head?_cons, Option.some.injEq] at hp
      exact ⟨us, by rw [hp]⟩
  refine follows_of_splits (.single ⟨p.behind.reverse, us, first, rest, hf, hr, ?_, ?_⟩) rfl rfl rfl
  · rw [tokens, hus]
  · show (⟨first, .number⟩ :: p.behind).reverse ++ ⟨rest, .number⟩ :: p.ahead.drop 1 = _
    rw [hus]
    simp

/-- An argument is a group, a cut digit, or a token: the cut is the one change of the buffer. -/
theorem conserves_argument (hi : inner.Conserves n) : Conserves n (argument inner) := by
  intro p hp
  rw [argument, peek_bind_apply]
  -- which number is cut is known only here, where the token at the cursor is
  cases hh : p.ahead.head? with
  | none => exact follows_refl p
  | some t =>
    dsimp only
    split
    · exact conserves_bind (conserves_braceGroup hi) (fun _ => conserves_pure _) p hp
    · cases hs : splitDigit? t with
      | none => exact hi.primary _ p hp
      | some parts => exact follows_takeDigit hh hs

/-- An argument in square brackets that may be missing conserves. -/
theorem conserves_optionalArgument (hi : inner.Conserves n) :
    Conserves n (optionalArgument inner) := by
  refine conserves_bind conserves_index fun start => ?_
  refine conserves_bind (conserves_matchToken _) fun opened => ?_
  split
  · refine conserves_bind (hi.expression _) fun body => ?_
    refine conserves_bind (conserves_matchToken _) fun closed => ?_
    split
    · exact conserves_pure _
    · exact conserves_bind (conserves_seek _) fun _ => conserves_pure _
  · exact conserves_pure _

/-- What an argument list reads behind the parenthesis that opens it. -/
theorem conserves_behindParenthesis (hi : inner.Conserves n) :
    Conserves n (do
      if ← matchToken ")" then return some []
      else
        let body ← inner.expression .loosest
        if ← matchToken ")" then return some (Expr.splat body) else return none :
      Reading (Option (List Expr))) := by
  refine conserves_bind (conserves_matchToken _) fun closed => ?_
  split
  · exact conserves_pure _
  · refine conserves_bind (hi.expression _) fun body => ?_
    refine conserves_bind (conserves_matchToken _) fun closed => ?_
    split <;> exact conserves_pure _

/-- Arguments between parentheses conserve. -/
theorem conserves_argumentList (hi : inner.Conserves n) : Conserves n (argumentList inner) := by
  refine conserves_rewinding (conserves_bind (conserves_matchToken _) fun opened => ?_)
  split
  · exact conserves_behindParenthesis hi
  · exact conserves_pure _

/-- Every request of a routine conserves, whatever the routine does with the answer. -/
theorem conserves_answer (hi : inner.Conserves n) (q : ParseRequest) :
    Conserves n (answer inner q) := by
  cases q with
  | index => exact conserves_index
  | setIndex i => exact conserves_seek i
  | atEnd => exact conserves_atEnd
  | peek => exact conserves_peek
  | next => exact conserves_next
  | matchToken raw => exact conserves_matchToken raw
  | matchTokens raws => exact conserves_matchTokens raws
  | markup start stop => exact conserves_of_state fun _ => rfl
  | group => exact conserves_group hi
  | argument => exact conserves_argument hi
  | optionalArgument => exact conserves_optionalArgument hi
  | argumentList => exact conserves_argumentList hi
  | expression min => exact hi.expression min
  | error code arg start => exact conserves_error code arg start
  | warn w => exact conserves_warn w
  | takeWarnings => exact conserves_takeWarnings

/-- A routine conserves what the answers to its requests conserve. -/
theorem conserves_run {α : Type} (hi : inner.Conserves n) (r : ParseRoutine α) :
    Conserves n (r.run (answer inner)) := by
  induction r with
  | done a => exact conserves_pure a
  | ask q next ih => exact conserves_bind (conserves_answer hi q) ih

/-- A routine conserves, since it is nothing but its requests. -/
theorem conserves_runHandler (hi : inner.Conserves n) (handler : ParseHandler)
    (lhs : Option Expr) (p : Precedence) : Conserves n (runHandler inner handler lhs p) :=
  conserves_run hi _

theorem conserves_infixApplication (hi : inner.Conserves n) (entry : IndexedEntry) (lhs : Expr)
    (p : Precedence) : Conserves n (infixApplication inner entry lhs p) :=
  conserves_bind (hi.expression p) fun _ => conserves_pure _

theorem conserves_postfixApplication (entry : IndexedEntry) (lhs : Expr) :
    Conserves n (postfixApplication entry lhs) := by
  unfold postfixApplication
  dsimp only
  split
  · exact conserves_bind (conserves_warn _) fun _ => conserves_pure _
  · exact conserves_bind (conserves_pure _) fun _ => conserves_pure _

/-- Applying an operator conserves, by its entry or by its routine. -/
theorem conserves_applyOperator (hi : inner.Conserves n) (entry : IndexedEntry) (lhs : Expr)
    (p : Precedence) : Conserves n (applyOperator inner entry lhs p) := by
  unfold applyOperator
  split
  · exact conserves_runHandler hi _ _ _
  · exact conserves_bind (conserves_postfixApplication _ _) fun _ => conserves_pure _
  · exact conserves_runHandler hi _ _ _
  · exact conserves_bind (conserves_infixApplication hi _ _ _) fun _ => conserves_pure _
  · exact conserves_pure _

/-- An operator that is tried and declined leaves the buffer as conserved as one that is taken. -/
theorem conserves_tryOperator (hi : inner.Conserves n) (min : Precedence) (lhs : Expr)
    (candidate : Nat × IndexedEntry) : Conserves n (tryOperator inner min lhs candidate) := by
  unfold tryOperator
  split
  · split
    · exact conserves_rewinding
        (conserves_bind (conserves_advance _) fun _ => conserves_applyOperator hi _ _ _)
    · exact conserves_pure _
  · exact conserves_pure _

/-- Juxtaposition reads an operand and multiplies, which conserves. -/
theorem conserves_juxtapose (ix : Index) (hi : inner.Conserves n) (min : Precedence)
    (lhs : Expr) : Conserves n (juxtapose ix inner min lhs) := by
  unfold juxtapose
  split
  · exact conserves_pure _
  · refine conserves_bind conserves_atEnd fun atEnd => ?_
    split
    · exact conserves_pure _
    · refine conserves_rewinding (conserves_bind (hi.expression _) fun rhs => ?_)
      split
      · exact conserves_pure _
      · exact conserves_pure _

/-- The suffixes of an operand conserve. -/
theorem conserves_suffix (ix : Index) (hi : inner.Conserves n) (min : Precedence) (lhs : Expr) :
    Conserves n (suffix ix inner min lhs) := by
  refine conserves_bind conserves_upcoming fun upcoming => ?_
  split
  · exact conserves_juxtapose ix hi min lhs
  · split
    · exact conserves_firstOf fun _ _ => conserves_tryOperator hi min lhs _
    · exact conserves_pure _

/-- One round of suffixes conserves. -/
theorem conserves_suffixRound (ix : Index) (hi : inner.Conserves n) (min : Precedence)
    (lhs : Expr) : Conserves n (suffixRound ix inner min lhs) := by
  refine conserves_bind (conserves_suffix ix hi min lhs) fun o => ?_
  split <;> exact conserves_pure _

/-- All rounds of suffixes conserve, by the rounds. -/
theorem conserves_suffixes (ix : Index) (hi : inner.Conserves n) (min : Precedence)
    (lhs : Expr) : Conserves n (suffixes ix inner min lhs) :=
  conserves_loop (conserves_suffixRound ix hi min) lhs

/-- What is behind the digits of a numeral: a part that repeats, or nothing. -/
def repeating (text : String) : Reading Expr := do
  match repeatingPart? (text.toList.contains '.') (← get).ahead with
  | some (digits, length) =>
    Reading.advance length
    return .number ((if text.toList.contains '.' then text else text ++ ".") ++ "(" ++ digits ++ ")")
  | none => return .number text

/-- A numeral is its groups of digits and a repeating part behind them. -/
theorem numeral_eq : numeral = (get : Reading Parser) >>= fun p =>
    Reading.advance (digitGroups p.ahead).2 >>= fun _ =>
      repeating (withLeadingZero (String.join (digitGroups p.ahead).1)) := rfl

theorem conserves_repeating (text : String) : Conserves n (repeating text) := by
  refine conserves_bind conserves_get fun q => ?_
  split
  · exact conserves_bind (conserves_advance _) fun _ => conserves_pure _
  · exact conserves_pure _

/-- A numeral passes its tokens and conserves them. -/
theorem conserves_numeral : Conserves n numeral := by
  rw [numeral_eq]
  exact conserves_bind conserves_get fun p =>
    conserves_bind (conserves_advance _) fun _ => conserves_repeating _

theorem conserves_textToken : Conserves n textToken := by
  refine conserves_bind conserves_peek fun t => ?_
  split
  · split
    · exact conserves_bind (conserves_advance 1) fun _ => conserves_pure _
    · exact conserves_pure _
  · exact conserves_pure _

/-- A text conserves the tokens between its braces. -/
theorem conserves_text : Conserves n text := by
  refine conserves_bind (conserves_advance 1) fun _ => ?_
  refine conserves_bind conserves_index fun start => ?_
  refine conserves_bind (conserves_matchToken _) fun opened => ?_
  split
  · refine conserves_bind conserves_textToken fun text => ?_
    refine conserves_bind conserves_matchCloseGroup fun closed => ?_
    split
    · exact conserves_pure _
    · exact conserves_error _ _ _
  · exact conserves_pure _

/-- An operand between delimiters conserves. -/
theorem conserves_delimited (hi : inner.Conserves n) (close : List String) :
    Conserves n (delimited inner close) := by
  refine conserves_bind (conserves_matchTokens _) fun closed => ?_
  split
  · exact conserves_pure _
  · refine conserves_bind (hi.expression _) fun body => ?_
    refine conserves_bind (conserves_matchTokens _) fun closed => ?_
    split <;> exact conserves_pure _

/-- A matchfix operator that does not find its closing delimiter conserves. -/
theorem conserves_tryMatchfix (hi : inner.Conserves n) (candidate : Nat × IndexedEntry) :
    Conserves n (tryMatchfix inner candidate) := by
  refine conserves_rewinding ?_
  dsimp only
  split
  · exact conserves_pure _
  · refine conserves_bind (conserves_advance _) fun _ => ?_
    refine conserves_bind (conserves_delimited hi _) fun body => ?_
    split
    · exact conserves_pure _
    · split
      · exact conserves_runHandler hi _ _ _
      · exact conserves_pure _

theorem conserves_matchfix (ix : Index) (hi : inner.Conserves n) :
    Conserves n (matchfix ix inner) :=
  conserves_bind conserves_upcoming fun _ => conserves_firstOf fun _ _ => conserves_tryMatchfix hi _

theorem conserves_takeEnvironmentName : Conserves n takeEnvironmentName := by
  refine conserves_bind conserves_get fun p => ?_
  exact conserves_bind (conserves_advance _) fun _ => conserves_pure _

/-- What cannot stand in a cell is passed with an error. -/
theorem conserves_unexpectedInCell (t : Tabular) : Conserves n (unexpectedInCell t) := by
  refine conserves_bind conserves_index fun start => ?_
  refine conserves_bind (conserves_advance 1) fun _ => ?_
  exact conserves_bind (conserves_error _ _ _) fun _ => conserves_pure _

/-- What an expression, or the lack of one, makes of an empty cell. -/
def fillCell (t : Tabular) : Option Expr → Reading (Tabular × Bool)
  | some e => return ({ t with cell := some e }, true)
  | none => do return (← unexpectedInCell t, true)

/-- What a round over the cells of an environment can be, by the token that comes next. -/
inductive TabularRound (inner : Nested) (t : Tabular) :
    Option Token → Reading (Tabular × Bool) → Prop
  | ended : TabularRound inner t none (return (t, false))
  | cell : TabularRound inner t (some ⟨"&", .char⟩) (do
      Reading.advance 1
      return (t.endCell, true))
  | row : TabularRound inner t (some ⟨"\\\\", .command⟩) (do
      Reading.advance 1
      return (t.endRow, true))
  | closed : TabularRound inner t (some ⟨"\\end", .command⟩) (do
      Reading.advance 1
      let _ ← takeEnvironmentName
      return (t, false))
  | filled {token : Token} (hend : token ≠ ⟨"\\end", .command⟩) :
      TabularRound inner t (some token) (do return (← unexpectedInCell t, true))
  | empty {token : Token} (hend : token ≠ ⟨"\\end", .command⟩) (hcell : t.cell = none) :
      TabularRound inner t (some token) (inner.expression .loosest >>= fillCell t)

/-- The token that comes next decides about a round, together with whether the cell is filled. -/
theorem exists_tabularRound (inner : Nested) (t : Tabular) :
    ∃ next, tabularStep inner t = Reading.peek >>= next ∧ ∀ o, TabularRound inner t o (next o) := by
  refine ⟨_, rfl, fun o => ?_⟩
  cases o with
  | none => exact .ended
  | some token =>
    dsimp only
    -- in the order in which the marks are looked for
    by_cases hcell : token = ⟨"&", .char⟩
    · rw [if_pos hcell]
      exact hcell ▸ .cell
    rw [if_neg hcell]
    by_cases hrow : token = ⟨"\\\\", .command⟩
    · rw [if_pos hrow]
      exact hrow ▸ .row
    rw [if_neg hrow]
    by_cases hend : token = ⟨"\\end", .command⟩
    · rw [if_pos hend]
      exact hend ▸ .closed
    rw [if_neg hend]
    cases hcell : t.cell with
    | some cell => exact .filled hend
    | none =>
      refine cast (congrArg (TabularRound inner t _) (bind_congr fun e => ?_))
        (TabularRound.empty hend hcell)
      cases e <;> rfl

/-- What a round does in a state is one of the rounds by its next token. -/
theorem tabularRound_apply (inner : Nested) (t : Tabular) (p : Parser) :
    ∃ o r, p.ahead.head? = o ∧ TabularRound inner t o r ∧ tabularStep inner t p = r p := by
  obtain ⟨next, heq, hround⟩ := exists_tabularRound inner t
  exact ⟨_, _, rfl, hround p.ahead.head?, by rw [heq, peek_bind_apply]⟩

/-- Filling a cell conserves, with an expression or with an error for the lack of one. -/
theorem conserves_fillCell (t : Tabular) (o : Option Expr) : Conserves n (fillCell t o) := by
  cases o with
  | some e => exact conserves_pure _
  | none => exact conserves_bind (conserves_unexpectedInCell t) fun _ => conserves_pure _

/-- One round over the cells conserves, whichever it is. -/
theorem conserves_tabularStep (hi : inner.Conserves n) (t : Tabular) :
    Conserves n (tabularStep inner t) := by
  obtain ⟨next, heq, hround⟩ := exists_tabularRound inner t
  rw [heq]
  refine conserves_bind conserves_peek fun o => ?_
  have h := hround o
  generalize next o = r at h ⊢
  cases h with
  | ended => exact conserves_pure _
  | cell | row => exact conserves_bind (conserves_advance 1) fun _ => conserves_pure _
  | closed =>
    exact conserves_bind (conserves_advance 1) fun _ =>
      conserves_bind conserves_takeEnvironmentName fun _ => conserves_pure _
  | filled => exact conserves_bind (conserves_unexpectedInCell t) fun _ => conserves_pure _
  | empty => exact conserves_bind (hi.expression _) fun _ => conserves_fillCell t _

/-- All rounds over the cells conserve, by the rounds. -/
theorem conserves_tabular (hi : inner.Conserves n) : Conserves n (tabular inner) :=
  conserves_loop (conserves_tabularStep hi) {}

/-- An environment entry that declines the cells conserves. -/
theorem conserves_tryEnvironment (hi : inner.Conserves n) (cells : Expr)
    (entry : IndexedEntry) : Conserves n (tryEnvironment inner cells entry) := by
  unfold tryEnvironment
  split
  · exact conserves_rewinding (conserves_runHandler hi _ _ _)
  · exact conserves_pure _

/-- What comes behind the name of an environment. -/
def environmentBody (ix : Index) (inner : Nested) (name : String) : Reading (Option Expr) :=
  match ix.environments name with
  | [] => return none
  | entries => do
    let cells := (← tabular inner).toExpr
    Reading.firstOf (tryEnvironment inner cells) entries

/-- What is tried at a begin command. -/
def environmentStep (ix : Index) (inner : Nested) : Reading (Option Expr) := do
  Reading.advance 1
  match ← takeEnvironmentName with
  | none => return none
  | some name => environmentBody ix inner name

/-- An environment is its step, taken back if the step fails. -/
theorem environment_eq (ix : Index) (inner : Nested) :
    environment ix inner = rewinding (environmentStep ix inner) := rfl

/-- With entries for the name, the cells are read and the entries tried on them. -/
theorem environmentBody_of_ne_nil {ix : Index} {name : String} (h : ix.environments name ≠ []) :
    environmentBody ix inner name = tabular inner >>= fun t =>
      firstOf (tryEnvironment inner t.toExpr) (ix.environments name) := by
  unfold environmentBody
  split
  · exact absurd ‹_› h
  · rfl

theorem conserves_environmentBody (ix : Index) (hi : inner.Conserves n) (name : String) :
    Conserves n (environmentBody ix inner name) := by
  unfold environmentBody
  split
  · exact conserves_pure _
  · exact conserves_bind (conserves_tabular hi) fun t =>
      conserves_firstOf fun _ _ => conserves_tryEnvironment hi _ _

/-- An environment conserves, known or unknown. -/
theorem conserves_environment (ix : Index) (hi : inner.Conserves n) :
    Conserves n (environment ix inner) := by
  rw [environment_eq]
  refine conserves_rewinding (conserves_bind (conserves_advance 1) fun _ => ?_)
  refine conserves_bind conserves_takeEnvironmentName fun name => ?_
  split
  · exact conserves_pure _
  · exact conserves_environmentBody ix hi _

/-- A prefix operator conserves, taken or declined. -/
theorem conserves_tryPrefixOp (hi : inner.Conserves n) (min : Precedence)
    (candidate : Nat × IndexedEntry) : Conserves n (tryPrefixOp inner min candidate) := by
  unfold tryPrefixOp
  dsimp only
  split
  · exact conserves_pure _
  · refine conserves_rewinding (conserves_bind (conserves_advance _) fun _ => ?_)
    split
    · exact conserves_runHandler hi _ _ _
    · exact conserves_bind (hi.expression _) fun _ => conserves_pure _

theorem conserves_prefixOperation (ix : Index) (hi : inner.Conserves n) (min : Precedence) :
    Conserves n (prefixOperation ix inner min) :=
  conserves_bind conserves_upcoming fun _ => conserves_firstOf fun _ _ => conserves_tryPrefixOp hi min _

/-- The arguments behind a name conserve. -/
theorem conserves_functionArguments (hi : inner.Conserves n) (head : String) :
    Conserves n (functionArguments inner head) := by
  refine conserves_bind (conserves_argumentList hi) fun arguments => ?_
  split
  · exact conserves_pure _
  · refine conserves_bind (hi.expression _) fun argument => ?_
    split <;> exact conserves_pure _

/-- An entry for a symbol conserves. -/
theorem conserves_trySymbol (hi : inner.Conserves n) (candidate : Nat × IndexedEntry) :
    Conserves n (trySymbol inner candidate) := by
  refine conserves_rewinding (conserves_bind (conserves_advance _) fun _ => ?_)
  split
  · exact conserves_runHandler hi _ _ _
  · split
    · exact conserves_bind (conserves_functionArguments hi _) fun _ => conserves_pure _
    · exact conserves_pure _

/-- A name that is read as written conserves. -/
theorem conserves_namedSymbol (hi : inner.Conserves n) : Conserves n (namedSymbol inner) := by
  refine conserves_bind conserves_get fun p => ?_
  dsimp only
  split
  · exact conserves_pure _
  · refine conserves_bind (conserves_advance _) fun _ => ?_
    split
    · refine conserves_bind (conserves_argumentList hi) fun arguments => ?_
      split <;> exact conserves_pure _
    · exact conserves_pure _

theorem conserves_symbol (ix : Index) (hi : inner.Conserves n) :
    Conserves n (symbol ix inner) := by
  refine conserves_bind conserves_upcoming fun upcoming => ?_
  refine conserves_bind (conserves_firstOf fun _ _ => conserves_trySymbol hi _) fun o => ?_
  split
  · exact conserves_pure _
  · exact conserves_namedSymbol hi

/-- What a token that is no number leads to: a group, nothing where a group ends, a text, or the
readers that are tried one after another. -/
@[elab_as_elim]
theorem primaryFrom_cases {ix : Index} {min : Precedence} {t : Token}
    {motive : Reading (Option Expr) → Prop}
    (group : t.kind = .openGroup → motive (do return some (← braceGroup inner)))
    (closing : t.kind = .closeGroup → motive (return none))
    (text : t.kind = .command ∧ t.raw ∈ Token.textCommands → motive (do return some (← text)))
    (others : motive (firstOf id [matchfix ix inner,
      if t.raw = "\\begin" then environment ix inner else return none,
      prefixOperation ix inner min, symbol ix inner])) :
    motive (primaryFrom ix inner min t) := by
  unfold primaryFrom
  split
  · exact group ‹_›
  · split
    · exact closing ‹_›
    · split
      · exact text ‹_›
      · exact others

/-- The readers to try: fences, environments at a begin command, prefix operators and symbols. -/
theorem alternative_cases {ix : Index} {min : Precedence} {t : Token}
    {motive : Reading (Option Expr) → Prop} {r : Reading (Option Expr)}
    (hr : r ∈ [matchfix ix inner, if t.raw = "\\begin" then environment ix inner else return none,
      prefixOperation ix inner min, symbol ix inner])
    (fence : motive (matchfix ix inner))
    (environment : t.raw = "\\begin" → motive (environment ix inner))
    (skipped : motive (return none))
    (prefixOp : motive (prefixOperation ix inner min))
    (symbol : motive (symbol ix inner)) : motive r := by
  simp only [List.mem_cons, List.not_mem_nil, or_false] at hr
  rcases hr with rfl | rfl | rfl | rfl
  · exact fence
  · split
    · exact environment ‹_›
    · exact skipped
  · exact prefixOp
  · exact symbol

/-- What begins an operand conserves, whichever token it begins with. -/
theorem conserves_primaryFrom (ix : Index) (hi : inner.Conserves n) (min : Precedence)
    (t : Token) : Conserves n (primaryFrom ix inner min t) := by
  apply primaryFrom_cases
  case group => exact fun _ => conserves_bind (conserves_braceGroup hi) fun _ => conserves_pure _
  case closing => exact fun _ => conserves_pure _
  case text => exact fun _ => conserves_bind conserves_text fun _ => conserves_pure _
  case others =>
    refine conserves_firstOf fun r hr => ?_
    apply alternative_cases hr
    case fence => exact conserves_matchfix ix hi
    case environment => exact fun _ => conserves_environment ix hi
    case skipped => exact conserves_pure _
    case prefixOp => exact conserves_prefixOperation ix hi min
    case symbol => exact conserves_symbol ix hi

/-- An operand without its suffixes conserves. -/
theorem conserves_primary (ix : Index) (hi : inner.Conserves n) (min : Precedence) :
    Conserves n (primary ix inner min) := by
  refine conserves_bind conserves_peek fun o => ?_
  split
  · exact conserves_pure _
  · split
    · exact conserves_bind conserves_numeral fun _ => conserves_pure _
    · exact conserves_primaryFrom ix hi min _

end Parser
namespace Nested

open MathMarkup.Parser Reading

variable {n : Nat} {inner : Nested}

/-- Going one level deeper: refused if the parse is marked, marked at the limit, and else the step
between entering and leaving. -/
theorem deeper_apply (step : Reading (Option Expr)) (p : Parser) :
    deeper step p =
      if p.tooDeep then (none, p)
      else if maxDepth ≤ p.depth then (none, { p with tooDeep := true })
      else ((step p.enter).1, (step p.enter).2.leave) := by
  show (if p.tooDeep = true then (pure none : Reading (Option Expr))
    else if maxDepth ≤ p.depth then giveUp
    else modify enter >>= fun _ => step >>= fun e => modify leave >>= fun _ => pure e) p = _
  by_cases ht : p.tooDeep = true
  · rw [if_pos ht, if_pos ht]
    rfl
  · rw [if_neg ht, if_neg ht]
    by_cases hd : maxDepth ≤ p.depth
    · rw [if_pos hd, if_pos hd]
      rfl
    · rw [if_neg hd, if_neg hd]
      rfl

/-- Giving up marks a state that has reached the limit. -/
theorem follows_giveUp {p : Parser} (hp : maxDepth ≤ p.deepest) :
    Follows p { p with tooDeep := true } :=
  ⟨.refl, rfl, Nat.le_refl _, id, fun _ => rfl, fun _ => Or.inr hp⟩

/-- The way back from the level below restores the depth. -/
theorem conserves_deeper {step : Reading (Option Expr)} (h : Reading.Conserves n step) :
    Reading.Conserves (n + 1) (deeper step) := by
  intro p hp
  rw [deeper_apply]
  split
  · exact follows_refl p
  · by_cases hd : maxDepth ≤ p.depth
    · rw [if_pos hd]
      exact follows_giveUp (Nat.le_trans hd hp.deepest)
    · rw [if_neg hd]
      have hf := h p.enter hp.enter
      refine ⟨hf.splits, ?_, Nat.le_trans (Nat.le_max_left _ _) hf.deepest, ?_, hf.sticky,
        hf.reached⟩
      · show (step p.enter).2.depth - 1 = p.depth
        rw [hf.depth]
        rfl
      · intro hb
        refine hf.bounded ?_
        show max p.deepest (p.depth + 1) ≤ maxDepth
        omega

/-- An operand with its suffixes conserves. -/
theorem conserves_operation (ix : Index) (hi : inner.Conserves n) (min : Precedence) :
    Reading.Conserves n (operation ix inner min) := by
  refine conserves_bind (hi.primary min) fun o => ?_
  split
  · exact conserves_bind (conserves_suffixes ix hi min _) fun _ => conserves_pure _
  · exact conserves_pure _

/-- At no level is anything lost. At the bottom the depth is the limit, so it is right there to mark
the input as too deep. -/
theorem conserves_atDepth (ix : Index) (n : Nat) : (atDepth ix n).Conserves n := by
  induction n with
  | zero =>
    have h : Reading.Conserves 0 giveUp := fun p hp =>
      follows_giveUp (Nat.le_trans (Nat.le_of_eq hp.levels.symm) hp.deepest)
    exact ⟨fun _ => h, fun _ => h⟩
  | succ n ih =>
    exact ⟨fun min => conserves_deeper (conserves_operation ix ih min),
      fun min => conserves_deeper (conserves_primary ix ih min)⟩

end Nested

namespace Parser

open Reading

variable {n : Nat} {inner : Nested}

/-- An operator without a right operand conserves. -/
theorem conserves_applyDangling (hi : inner.Conserves n) (entry : IndexedEntry) (left : Expr)
    (p : Precedence) : Conserves n (applyDangling inner entry left p) := by
  refine conserves_bind conserves_index fun start => ?_
  refine conserves_bind (conserves_applyOperator hi _ _ _) fun o => ?_
  split
  · exact conserves_pure _
  · exact conserves_bind (conserves_seek _) fun _ => conserves_infixApplication hi _ _ _

/-- A recovery at an operator conserves. -/
theorem conserves_recoverOperator (ix : Index) (hi : inner.Conserves n) (length : Nat)
    (entry : IndexedEntry) (lhs : Option Expr) :
    Conserves n (recoverOperator ix inner length entry lhs) := by
  refine conserves_bind (conserves_advance _) fun _ => ?_
  refine conserves_bind (conserves_applyDangling hi _ _ _) fun combined => ?_
  exact conserves_bind (conserves_suffixes ix hi _ _) fun _ => conserves_pure _

/-- A recovery that passes tokens conserves. -/
theorem conserves_recoverTokens (code : ErrorCode) (length : Nat) (lhs : Option Expr) :
    Conserves n (recoverTokens code length lhs) := by
  refine conserves_bind conserves_index fun start => ?_
  refine conserves_bind (conserves_advance _) fun _ => ?_
  exact conserves_bind (conserves_error _ _ _) fun _ => conserves_pure _

/-- A recovery at a delimiter conserves what it reads behind it. -/
theorem conserves_recoverDelimiter (hi : inner.Conserves n) (length : Nat) (close : List String)
    (lhs : Option Expr) : Conserves n (recoverDelimiter inner length close lhs) := by
  refine conserves_bind conserves_index fun start => ?_
  refine conserves_bind (conserves_advance _) fun _ => ?_
  refine conserves_bind (hi.expression _) fun body => ?_
  refine conserves_bind (conserves_matchTokens _) fun closed => ?_
  exact conserves_bind (conserves_error _ _ _) fun _ => conserves_pure _

theorem conserves_seekEnd : Conserves n (modify seekEnd : Reading Unit) :=
  conserves_modify fun p => follows_advance _ p

/-- Discarding the rest moves the cursor to the end and keeps the tokens. -/
theorem conserves_discardRest (lhs : Option Expr) : Conserves n (discardRest lhs) := by
  refine conserves_bind conserves_index fun start => ?_
  refine conserves_bind conserves_peek fun first => ?_
  refine conserves_bind conserves_seekEnd fun _ => ?_
  exact conserves_bind (conserves_error _ _ _) fun _ => conserves_pure _

/-- The rules of a recovery, by the tokens that stopped the parse. -/
inductive RecoveryRule (ix : Index) (inner : Nested) (lhs : Option Expr) (tokens : List Token) :
    Reading Expr → Prop
  | operator {length : Nat} {entry : IndexedEntry}
      (hm : (length, entry) ∈ ix.lookup .infixOp (Token.raws tokens)) :
      RecoveryRule ix inner lhs tokens (recoverOperator ix inner length entry lhs)
  | symbol {length : Nat} (hl : symbolLength? ix tokens = some length) :
      RecoveryRule ix inner lhs tokens (recoverTokens .unexpectedIdentifier length lhs)
  | opening {length : Nat} {close : List String}
      (hl : openDelimiter? ix tokens = some (length, close)) :
      RecoveryRule ix inner lhs tokens (recoverDelimiter inner length close lhs)
  | closing {length : Nat} (hl : closeDelimiter? ix tokens = some length) :
      RecoveryRule ix inner lhs tokens (recoverTokens .expectedOpenDelimiter length lhs)
  | rest : RecoveryRule ix inner lhs tokens (discardRest lhs)

/-- A recovery is one of its rules, by the tokens ahead. -/
theorem exists_recoveryRule (ix : Index) (inner : Nested) (lhs : Option Expr) :
    ∃ next : Parser → Reading Expr, recover ix inner lhs = get >>= next ∧
      ∀ p, RecoveryRule ix inner lhs p.ahead (next p) := by
  refine ⟨_, rfl, fun p => ?_⟩
  dsimp only
  cases hc : ix.lookup .infixOp (Token.raws p.ahead) with
  | cons c others => exact .operator (by rw [hc]; exact List.mem_cons_self)
  | nil =>
    dsimp only
    split
    · exact .symbol ‹_›
    · exact .opening ‹_›
    · exact .closing ‹_›
    · exact .rest

/-- A recovery conserves, whichever rule it follows. -/
theorem conserves_recover (ix : Index) (hi : inner.Conserves n) (lhs : Option Expr) :
    Conserves n (recover ix inner lhs) := by
  obtain ⟨next, heq, hrule⟩ := exists_recoveryRule ix inner lhs
  rw [heq]
  refine conserves_bind conserves_get fun p => ?_
  have h := hrule p
  generalize next p = r at h ⊢
  cases h with
  | operator => exact conserves_recoverOperator ix hi _ _ _
  | symbol | closing => exact conserves_recoverTokens _ _ _
  | opening => exact conserves_recoverDelimiter hi _ _ _
  | rest => exact conserves_discardRest _

/-- One round of recovering and going on conserves. -/
theorem conserves_recoveryRound (ix : Index) (hi : inner.Conserves n) (lhs : Option Expr) :
    Conserves n (recoveryRound ix inner lhs) := by
  refine conserves_bind conserves_get fun p => ?_
  split
  · exact conserves_pure _
  · exact conserves_bind (conserves_recover ix hi lhs) fun _ => conserves_pure _

/-- All rounds of recovering conserve, by the rounds. -/
theorem conserves_recoverAll (ix : Index) (hi : inner.Conserves n) (lhs : Option Expr) :
    Conserves n (recoverAll ix inner lhs) :=
  conserves_loop (conserves_recoveryRound ix hi) lhs

/-- Dropping spacing keeps the other tokens in their order. -/
theorem dropSpacing_sublist (last : Option Token) (ts : List Token) :
    (dropSpacing last ts).Sublist ts := by
  induction ts generalizing last with
  | nil => exact List.Sublist.refl _
  | cons t ts ih =>
    unfold dropSpacing
    split
    · exact (ih last).cons t
    · exact (ih (some t)).cons_cons t

/-- A parser at the start of some tokens has all levels of nesting left. -/
theorem atLevel_ofTokens (tokens : List Token) : (ofTokens tokens).AtLevel Nested.maxDepth :=
  ⟨Nat.zero_add _, Nat.le_refl 0⟩

end Parser
end MathMarkup
