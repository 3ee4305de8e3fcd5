import MathMarkup.Proofs.Conservation
import MathMarkup.Proofs.Lookup

/-!
# Every round consumes something

The parser goes back whenever an alternative does not work out, it loops after operands, over the
cells of an environment and over what stopped the parse, and cutting a number token makes its buffer
longer on the way. What makes it end is a rule that every reading obeys, as long as the custom
routines of the lexicon do: a reading never ends before where it began (`Reading.Onward`), and one
that may decline either declines where it began or has consumed a token (`Reading.Moves`).

The guard of `Reading.loop`, that a round must lower the slack, makes it differ from a loop without
one only where a round stalls (`Reading.repeats_or_stalls`). By the rule no round does, so every
loop of the parser runs round after round up to one that says it was the last (`Reading.Repeats`).
And since a recovery consumes a token of whatever stopped the parse, a parse ends at the end of its
buffer.
-/

namespace MathMarkup
namespace Parser

/-- Something is ahead just if the cursor is not at the end of the buffer. -/
theorem ahead_ne_nil_iff {p : Parser} : p.ahead ≠ [] ↔ p.index < p.tokens.length := by
  rw [length_tokens, ← List.length_pos_iff]
  omega

/-- No step makes the buffer shorter. -/
theorem Follows.length_le {p q : Parser} (h : Follows p q) : p.tokens.length ≤ q.tokens.length :=
  h.splits.length_le

/-- Where the cursor is back, there is as much ahead as there was. -/
theorem Follows.ahead_ne_nil {p q : Parser} (h : Follows p q) (hi : q.index = p.index)
    (hp : p.ahead ≠ []) : q.ahead ≠ [] := by
  have := h.length_le
  rw [ahead_ne_nil_iff] at hp ⊢
  omega

end Parser

namespace Reading

open MathMarkup.Parser (AtLevel Follows index_advance index_seek index_le_length length_tokens)

variable {α β : Type} {n : Nat}

/-! ## Readings that never go back -/

/-- A reading that never ends before where it began. -/
structure Onward (n : Nat) (r : Reading α) : Prop where
  conserves : Conserves n r
  le : ∀ p : Parser, p.AtLevel n → p.index ≤ (r p).2.index

/-- A reading that leaves the state as it is does not go back. -/
theorem onward_of_state {r : Reading α} (h : ∀ p, (r p).2 = p) : Onward n r :=
  ⟨conserves_of_state h, fun p _ => Nat.le_of_eq (by rw [h p])⟩

theorem onward_pure (a : α) : Onward n (pure a : Reading α) :=
  onward_of_state fun _ => rfl

/-- Readings in a row that do not go back. -/
theorem onward_bind {r : Reading α} {f : α → Reading β} (hr : Onward n r)
    (hf : ∀ a, Onward n (f a)) : Onward n (r >>= f) where
  conserves := conserves_bind hr.conserves fun a => (hf a).conserves
  le p hp := Nat.le_trans (hr.le p hp) ((hf _).le _ (hr.conserves.atLevel hp))

theorem onward_get : Onward n (get : Reading Parser) := onward_of_state fun _ => rfl

theorem onward_index : Onward n index := onward_of_state fun _ => rfl

theorem onward_peek : Onward n peek := onward_of_state fun _ => rfl

theorem onward_atEnd : Onward n atEnd := onward_of_state fun _ => rfl

theorem onward_advance (k : Nat) : Onward n (advance k) where
  conserves := conserves_advance k
  le p _ := by
    show p.index ≤ (p.advance k).index
    rw [index_advance]
    omega

theorem onward_seekEnd : Onward n (modify Parser.seekEnd : Reading Unit) where
  conserves := Parser.conserves_seekEnd
  le p _ := by
    show p.index ≤ (p.advance p.ahead.length).index
    rw [index_advance]
    omega

/-- An error quotes tokens behind the cursor and does not move it. -/
theorem onward_error (code : ErrorCode) (arg : Option String) (start : Nat) :
    Onward n (error code arg start) := onward_of_state fun _ => rfl

theorem onward_warn (w : Warning) : Onward n (warn w) :=
  ⟨conserves_warn w, fun _ _ => Nat.le_refl _⟩

theorem onward_takeWarnings : Onward n takeWarnings :=
  ⟨conserves_takeWarnings, fun _ _ => Nat.le_refl _⟩

theorem onward_next : Onward n next :=
  onward_bind onward_peek fun t => onward_bind (onward_advance 1) fun _ => onward_pure t

/-- Moving on under a condition. -/
theorem onward_advanceIf (c : Prop) [Decidable c] (k : Nat) :
    Onward n (if c then do advance k; return true else return false) := by
  split
  · exact onward_bind (onward_advance _) fun _ => onward_pure _
  · exact onward_pure _

theorem onward_matchTokens (raws : List String) : Onward n (matchTokens raws) :=
  onward_bind onward_get fun _ => onward_advanceIf _ _

theorem onward_matchToken (raw : String) : Onward n (matchToken raw) := by
  refine onward_bind onward_peek fun t => ?_
  cases t with
  | none => exact onward_pure _
  | some t => exact onward_advanceIf _ _

theorem onward_matchCloseGroup : Onward n matchCloseGroup := by
  refine onward_bind onward_peek fun t => ?_
  cases t with
  | none => exact onward_pure _
  | some t => exact onward_advanceIf _ _

/-- A reading that succeeds is not taken back. -/
theorem rewinding_of_some {step : Reading (Option α)} {p q : Parser} {a : α}
    (h : step p = (some a, q)) : rewinding step p = (some a, q) := by
  unfold rewinding
  rw [bind_apply, bind_apply, show (index p).2 = p from rfl, h]
  rfl

/-- A reading that fails is taken back to where it began. -/
theorem rewinding_of_none {step : Reading (Option α)} {p q : Parser} (h : step p = (none, q)) :
    rewinding step p = (none, q.seek p.index) := by
  unfold rewinding
  rw [bind_apply, bind_apply, show (index p).2 = p from rfl, h]
  rfl

/-- Going back ends exactly where the step began: the buffer did not get shorter. -/
theorem index_rewind {p q : Parser} (h : Follows p q) : (q.seek p.index).index = p.index := by
  rw [index_seek]
  exact Nat.min_eq_left (Nat.le_trans p.index_le_length h.length_le)

/-- Taking a failed reading back ends where it began, so not before. -/
theorem onward_rewinding {step : Reading (Option α)} (h : Onward n step) :
    Onward n (rewinding step) where
  conserves := conserves_rewinding h.conserves
  le p hp := by
    have hle := h.le p hp
    have hf := h.conserves p hp
    rcases hs : step p with ⟨o, q⟩
    rw [hs] at hle hf
    cases o with
    | some a =>
      rw [rewinding_of_some hs]
      exact hle
    | none =>
      rw [rewinding_of_none hs]
      exact Nat.le_of_eq (index_rewind hf).symm

/-- Trying alternatives that do not go back. -/
theorem onward_firstOf {alternative : α → Reading (Option β)} {as : List α}
    (h : ∀ a ∈ as, Onward n (alternative a)) : Onward n (firstOf alternative as) := by
  induction as with
  | nil => exact onward_pure _
  | cons a as ih =>
    refine onward_bind (h a (List.mem_cons_self ..)) fun o => ?_
    split
    · exact onward_pure _
    · exact ih fun a ha => h a (List.mem_cons_of_mem _ ha)

/-- A loop does not go back if its rounds do not, whether it ends by itself or not. -/
theorem onward_loop {round : α → Reading (α × Bool)} (h : ∀ a, Onward n (round a)) (a : α) :
    Onward n (loop round a) where
  conserves := conserves_loop (fun a => (h a).conserves) a
  le p hp := by
    induction a, p using loop_induction round with
    | last a p b again q heq hloop =>
      have hle := (h a).le p hp
      rw [heq] at hle
      rw [hloop]
      exact hle
    | again a p b q heq hloop ih =>
      have hle := (h a).le p hp
      have hf := (h a).conserves p hp
      rw [heq] at hle hf
      rw [hloop]
      exact Nat.le_trans hle (ih (hf.atLevel hp))

/-! ## Readings that consume a token -/

/-- A reading that consumes at least one token, wherever there is one. -/
structure Consumes (n : Nat) (r : Reading α) : Prop extends Onward n r where
  lt : ∀ p : Parser, p.AtLevel n → p.ahead ≠ [] → p.index < (r p).2.index

theorem consumes_advance {k : Nat} (hk : 0 < k) : Consumes n (advance k) where
  toOnward := onward_advance k
  lt p _ ha := by
    have := List.length_pos_iff.2 ha
    show p.index < (p.advance k).index
    rw [index_advance]
    omega

/-- Whatever comes after consuming a token. -/
theorem consumes_bind {r : Reading α} {f : α → Reading β} (hr : Consumes n r)
    (hf : ∀ a, Onward n (f a)) : Consumes n (r >>= f) where
  toOnward := onward_bind hr.toOnward hf
  lt p hp ha := Nat.lt_of_lt_of_le (hr.lt p hp ha) ((hf _).le _ (hr.conserves.atLevel hp))

/-- Looking at the state before consuming a token. -/
theorem consumes_state_bind {r : Reading α} {f : α → Reading β} (hr : ∀ p, (r p).2 = p)
    (hf : ∀ a, Consumes n (f a)) : Consumes n (r >>= f) where
  toOnward := onward_bind (onward_of_state hr) fun a => (hf a).toOnward
  lt p hp ha := by
    rw [bind_apply, hr p]
    exact (hf _).lt p hp ha

/-! ## Readings that move or decline -/

/-- A reading that has consumed a token if it reads something, and declines where it began. -/
structure Moves (n : Nat) (r : Reading (Option α)) : Prop extends Onward n r where
  lt : ∀ p : Parser, p.AtLevel n → p.ahead ≠ [] → (r p).1 ≠ none → p.index < (r p).2.index
  eq : ∀ p : Parser, p.AtLevel n → (r p).1 = none → (r p).2.index = p.index

theorem moves_none : Moves n (pure none : Reading (Option α)) where
  toOnward := onward_pure _
  lt _ _ _ h := absurd rfl h
  eq _ _ _ := rfl

/-- A step that is taken back when it fails moves, if it consumes when it succeeds. -/
theorem moves_rewinding {step : Reading (Option α)} (h : Onward n step)
    (hlt : ∀ p : Parser, p.AtLevel n → p.ahead ≠ [] → (step p).1 ≠ none →
      p.index < (step p).2.index) : Moves n (rewinding step) where
  toOnward := onward_rewinding h
  lt p hp ha hs := by
    -- what is found moves on, and what is not found is taken back
    have := hlt p hp ha
    rcases hs' : step p with ⟨o, q⟩
    rw [hs'] at this
    cases o with
    | some a =>
      rw [rewinding_of_some hs']
      exact this (by simp)
    | none =>
      rw [rewinding_of_none hs'] at hs
      exact absurd rfl hs
  eq p hp hs := by
    have hf := h.conserves p hp
    rcases hs' : step p with ⟨o, q⟩
    rw [hs'] at hf
    cases o with
    | some a =>
      rw [rewinding_of_some hs'] at hs
      exact absurd hs (by simp)
    | none =>
      rw [rewinding_of_none hs']
      exact index_rewind hf

/-- An alternative that consumes a token if it does not decline. -/
theorem Consumes.moves_rewinding {step : Reading (Option α)} (h : Consumes n step) :
    Moves n (rewinding step) :=
  Reading.moves_rewinding h.toOnward fun p hp ha _ => h.lt p hp ha

/-- What never declines and consumes a token. -/
theorem Consumes.moves {r : Reading (Option α)} (h : Consumes n r) (hs : ∀ p, (r p).1 ≠ none) :
    Moves n r where
  toOnward := h.toOnward
  lt p hp ha _ := h.lt p hp ha
  eq p _ hn := absurd hn (hs p)

/-- After a reading that declined, another one starts at the same token. -/
theorem moves_orElse {r : Reading (Option α)} {f : Option α → Reading (Option α)}
    (hr : Moves n r) (hsome : ∀ a, f (some a) = pure (some a)) (hnone : Moves n (f none)) :
    Moves n (r >>= f) where
  toOnward := onward_bind hr.toOnward fun o => by
    cases o with
    | none => exact hnone.toOnward
    | some a => rw [hsome]; exact onward_pure _
  lt p hp ha hs := by
    -- where the first reading declines, the second one starts at the same token and has to move
    have hf := hr.conserves p hp
    rw [bind_apply] at hs ⊢
    cases ho : (r p).1 with
    | none =>
      rw [ho] at hs
      have heq := hr.eq p hp ho
      have hlt := hnone.lt _ (hf.atLevel hp) (hf.ahead_ne_nil heq ha) hs
      rw [heq] at hlt
      exact hlt
    | some a =>
      rw [hsome]
      exact hr.lt p hp ha (by rw [ho]; simp)
  eq p hp hs := by
    rw [bind_apply] at hs ⊢
    cases ho : (r p).1 with
    | none =>
      rw [ho] at hs
      exact (hnone.eq _ (hr.conserves.atLevel hp) hs).trans (hr.eq p hp ho)
    | some a =>
      rw [ho, hsome] at hs
      exact absurd hs (by rw [pure_apply]; simp)

/-- Trying alternatives that each move or decline. -/
theorem moves_firstOf {alternative : α → Reading (Option β)} {as : List α}
    (h : ∀ a ∈ as, Moves n (alternative a)) : Moves n (firstOf alternative as) := by
  induction as with
  | nil => exact moves_none
  | cons a as ih =>
    refine moves_orElse (h a (List.mem_cons_self ..)) (fun _ => rfl) ?_
    exact ih fun a ha => h a (List.mem_cons_of_mem _ ha)

/-- Looking at the state before. -/
theorem moves_state_bind {r : Reading α} {f : α → Reading (Option β)} (hr : ∀ p, (r p).2 = p)
    (hf : ∀ a, Moves n (f a)) : Moves n (r >>= f) where
  toOnward := onward_bind (onward_of_state hr) fun a => (hf a).toOnward
  lt p hp ha hs := by
    rw [bind_apply, hr p] at hs ⊢
    exact (hf _).lt p hp ha hs
  eq p hp hs := by
    rw [bind_apply, hr p] at hs ⊢
    exact (hf _).eq p hp hs

/-- Taking back what declined leads to where it is already. -/
theorem Moves.rewinding {step : Reading (Option α)} (h : Moves n step) :
    Moves n (rewinding step) :=
  moves_rewinding h.toOnward h.lt

/-- What is made of a reading's result afterwards does not change how it moves. -/
theorem moves_bind {r : Reading (Option α)} {f : Option α → Reading (Option β)} (hr : Moves n r)
    (hnone : f none = pure none) (hsome : ∀ a, Onward n (f (some a)))
    (hread : ∀ a p, (f (some a) p).1 ≠ none) : Moves n (r >>= f) where
  toOnward := onward_bind hr.toOnward fun o => by
    cases o with
    | none => rw [hnone]; exact onward_pure _
    | some a => exact hsome a
  lt p hp ha hs := by
    have hlt := hr.lt p hp ha
    have hp' := hr.conserves.atLevel hp
    rw [bind_apply] at hs ⊢
    cases ho : (r p).1 with
    | none =>
      rw [ho, hnone] at hs
      exact absurd rfl hs
    | some a =>
      rw [ho] at hlt
      -- the first reading has moved already, so the second one may stay where it is
      exact Nat.lt_of_lt_of_le (hlt (by simp)) ((hsome a).le _ hp')
  eq p hp hs := by
    rw [bind_apply] at hs ⊢
    cases ho : (r p).1 with
    | none =>
      rw [hnone]
      exact hr.eq p hp ho
    | some a =>
      rw [ho] at hs
      exact absurd hs (hread a _)

/-! ## Loops that end by themselves -/

/-- A run of a loop: rounds one after another, up to one that says it was the last. -/
inductive Repeats (round : α → Reading (α × Bool)) : α → Parser → α → Parser → Prop where
  | last {a b : α} {p q : Parser} (h : round a p = ((b, false), q)) : Repeats round a p b q
  | again {a b c : α} {p q r : Parser} (h : round a p = ((b, true), q))
      (hr : Repeats round b q c r) : Repeats round a p c r

/-- A run of a loop that is cut short: a round wants another one and has not lowered the slack. -/
inductive Stalls (round : α → Reading (α × Bool)) : α → Parser → α → Parser → Prop where
  | here {a b : α} {p q : Parser} (h : round a p = ((b, true), q)) (still : p.slack ≤ q.slack) :
      Stalls round a p b q
  | again {a b c : α} {p q r : Parser} (h : round a p = ((b, true), q)) (further : q.slack < p.slack)
      (hr : Stalls round b q c r) : Stalls round a p c r

/-- A loop ends by itself or is cut short. -/
theorem repeats_or_stalls (round : α → Reading (α × Bool)) (a : α) (p : Parser) :
    Repeats round a p (loop round a p).1 (loop round a p).2 ∨
      Stalls round a p (loop round a p).1 (loop round a p).2 := by
  fun_induction loop round a p with
  | case1 a p b q heq => exact .inl (.last heq)
  | case2 a p b q heq hslack ih => exact ih.imp (.again heq) (.again heq hslack)
  | case3 a p b q heq hslack => exact .inr (.here heq (Nat.le_of_not_lt hslack))

/-- If every round that wants another one has consumed something, no run is cut short. -/
theorem not_stalls {round : α → Reading (α × Bool)} (h : ∀ a, Conserves n (round a))
    (hlt : ∀ a (p : Parser), p.AtLevel n → (round a p).1.2 = true →
      p.index < (round a p).2.index) {a b : α} {p q : Parser} (hp : p.AtLevel n) :
    ¬ Stalls round a p b q := by
  intro hs
  induction hs with
  | @here a b p q heq still =>
    have hf := h a p hp
    have hi := hlt a p hp
    rw [heq] at hf hi
    exact absurd (hf.slack_lt (hi rfl)) (Nat.not_lt_of_le still)
  | @again a b c p q r heq further hr ih =>
    have hf := h a p hp
    rw [heq] at hf
    exact ih (hf.atLevel hp)

/-- So the loop is a run that ends by itself. -/
theorem repeats_loop {round : α → Reading (α × Bool)} (h : ∀ a, Conserves n (round a))
    (hlt : ∀ a (p : Parser), p.AtLevel n → (round a p).1.2 = true →
      p.index < (round a p).2.index) (a : α) (p : Parser) (hp : p.AtLevel n) :
    Repeats round a p (loop round a p).1 (loop round a p).2 :=
  (repeats_or_stalls round a p).resolve_right (not_stalls h hlt hp)

end Reading

/-! ## The functions of the parser -/

/-- Readers that move or decline at a level of nesting. -/
structure Nested.Moving (n : Nat) (inner : Nested) : Prop where
  expression : ∀ min, Reading.Moves n (inner.expression min)
  primary : ∀ min, Reading.Moves n (inner.primary min)

/-- Such readers, and custom routines that never go back when they use them. -/
structure Nested.Progresses (ix : Index) (n : Nat) (inner : Nested) : Prop
    extends Nested.Moving n inner where
  handler : ∀ e ∈ ix.latest, ∀ handler, e.parse = some handler → ∀ lhs precedence,
    Reading.Onward n (Parser.runHandler inner handler lhs precedence)

theorem Nested.Moving.conserves {n : Nat} {inner : Nested} (h : inner.Moving n) :
    inner.Conserves n :=
  ⟨fun min => (h.expression min).conserves, fun min => (h.primary min).conserves⟩

namespace Parser

open Reading

variable {ix : Index} {n : Nat} {inner : Nested}

/-- Skipping to the end of a group goes on token by token. -/
theorem onward_skipToCloseGroup (start : Nat) (body : Option Expr) :
    Onward n (skipToCloseGroup start body) := by
  refine onward_bind onward_get fun p => onward_bind (onward_advance _) fun _ => ?_
  split
  · exact onward_pure _
  · exact onward_bind (onward_error _ _ _) fun _ => onward_pure _

/-- A group in braces consumes its brace at least. -/
theorem consumes_braceGroup (hi : inner.Moving n) : Consumes n (braceGroup inner) := by
  refine consumes_state_bind (fun _ => rfl) fun start => ?_
  refine consumes_bind (consumes_advance Nat.one_pos) fun _ => ?_
  refine onward_bind onward_matchCloseGroup fun closed => ?_
  split
  · exact onward_pure _
  · refine onward_bind (hi.expression _).toOnward fun body => ?_
    refine onward_bind onward_matchCloseGroup fun closed => ?_
    split
    · exact onward_pure _
    · exact onward_skipToCloseGroup start body

/-- A group does not go back, if what is inside moves or declines. -/
theorem onward_group (hi : inner.Moving n) : Onward n (group inner) := by
  refine onward_bind onward_peek fun t => ?_
  split
  · split
    · exact onward_bind (consumes_braceGroup hi).toOnward fun _ => onward_pure _
    · exact onward_pure _
  · exact onward_pure _

/-- Cutting a digit off leaves the cursor behind the digit, so an argument does not go back. -/
theorem onward_argument (hi : inner.Moving n) : Onward n (argument inner) := by
  refine ⟨conserves_argument hi.conserves, fun p hp => ?_⟩
  rw [argument, peek_bind_apply]
  cases p.ahead.head? with
  | none => exact Nat.le_refl _
  | some t =>
    dsimp only
    split
    · exact (consumes_braceGroup hi).le p hp
    · cases splitDigit? t with
      | none => exact (hi.primary _).le p hp
      | some parts => exact Nat.le_succ _

/-- An argument in square brackets ends where it began if the brackets are not closed. -/
theorem onward_optionalArgument (hi : inner.Moving n) :
    Onward n (optionalArgument inner) := by
  refine ⟨conserves_optionalArgument hi.conserves, fun p hp => ?_⟩
  -- the routine takes a position back by hand, so its three ends are looked at one by one
  have happly : optionalArgument inner p =
      if (matchToken "[" p).1 = true then
        let body := inner.expression .loosest (matchToken "[" p).2
        if (matchToken "]" body.2).1 = true then (body.1, (matchToken "]" body.2).2)
        else (none, (matchToken "]" body.2).2.seek p.index)
      else (none, (matchToken "[" p).2) := by
    unfold optionalArgument
    rw [bind_apply, bind_apply]
    show (if (matchToken "[" p).1 = true then _ else _ : Reading (Option Expr)) _ = _
    rw [ite_apply]
    refine if_congr Iff.rfl ?_ rfl
    rw [bind_apply, bind_apply, ite_apply]
    rfl
  have hto : Onward n (matchToken "[" >>= fun _ =>
      inner.expression .loosest >>= fun _ => matchToken "]") :=
    onward_bind (onward_matchToken _) fun _ =>
      onward_bind (hi.expression _).toOnward fun _ => onward_matchToken _
  rw [happly]
  split
  · dsimp only
    split
    · exact hto.le p hp
    · exact Nat.le_of_eq (index_rewind (hto.conserves p hp)).symm
  · exact (onward_matchToken "[").le p hp

/-- Behind the parenthesis that opens an argument list, each way only goes forward. -/
theorem onward_behindParenthesis (hi : inner.Moving n) :
    Onward n (do
      if ← matchToken ")" then return some []
      else
        let body ← inner.expression .loosest
        if ← matchToken ")" then return some (Expr.splat body) else return none :
      Reading (Option (List Expr))) := by
  refine onward_bind (onward_matchToken _) fun closed => ?_
  split
  · exact onward_pure _
  · refine onward_bind (hi.expression _).toOnward fun body => ?_
    refine onward_bind (onward_matchToken _) fun closed => ?_
    split <;> exact onward_pure _

/-- Arguments in parentheses end where they began if the parentheses are not closed. -/
theorem onward_argumentList (hi : inner.Moving n) : Onward n (argumentList inner) := by
  refine onward_rewinding (onward_bind (onward_matchToken _) fun opened => ?_)
  split
  · exact onward_behindParenthesis hi
  · exact onward_pure _

theorem onward_infixApplication (hi : inner.Moving n) (entry : IndexedEntry) (lhs : Expr)
    (p : Precedence) : Onward n (infixApplication inner entry lhs p) :=
  onward_bind (hi.expression p).toOnward fun _ => onward_pure _

theorem onward_postfixApplication (entry : IndexedEntry) (lhs : Expr) :
    Onward n (postfixApplication entry lhs) := by
  unfold postfixApplication
  dsimp only
  split
  · exact onward_bind (onward_warn _) fun _ => onward_pure _
  · exact onward_bind (onward_pure _) fun _ => onward_pure _

/-- Applying an operator does not go back, by its routine either. -/
theorem onward_applyOperator (hi : inner.Progresses ix n) {entry : IndexedEntry}
    (he : entry ∈ ix.latest) (lhs : Expr) (p : Precedence) :
    Onward n (applyOperator inner entry lhs p) := by
  unfold applyOperator
  split
  · exact hi.handler entry he _ ‹_› _ _
  · exact onward_bind (onward_postfixApplication _ _) fun _ => onward_pure _
  · exact hi.handler entry he _ ‹_› _ _
  · exact onward_bind (onward_infixApplication hi.toMoving _ _ _) fun _ => onward_pure _
  · exact onward_pure _

/-- An operator consumes its spelling or declines where it began. -/
theorem moves_tryOperator (hi : inner.Progresses ix n) (min : Precedence) (lhs : Expr)
    {candidate : Nat × IndexedEntry} (hl : 0 < candidate.1) (he : candidate.2 ∈ ix.latest) :
    Moves n (tryOperator inner min lhs candidate) := by
  unfold tryOperator
  split
  · split
    · exact (consumes_bind (consumes_advance hl) fun _ =>
        onward_applyOperator hi he _ _).moves_rewinding
    · exact moves_none
  · exact moves_none

/-- Juxtaposition moves if an operand follows, and declines otherwise. -/
theorem moves_juxtapose (hi : inner.Moving n) (min : Precedence) (lhs : Expr) :
    Moves n (juxtapose ix inner min lhs) := by
  unfold juxtapose
  split
  · exact moves_none
  · refine moves_state_bind (fun _ => rfl) fun atEnd => ?_
    split
    · exact moves_none
    · refine Moves.rewinding ?_
      refine moves_bind (hi.expression _) ?_ ?_ ?_
      · rfl
      · exact fun _ => onward_pure _
      · exact fun _ _ => nofun

/-- Putting a candidate in place adds it and no other. -/
theorem mem_insertCandidate {c candidate : Nat × IndexedEntry} {ds : List (Nat × IndexedEntry)}
    (h : candidate ∈ insertCandidate c ds) : candidate = c ∨ candidate ∈ ds := by
  induction ds with
  | nil => exact .inl (List.mem_singleton.1 h)
  | cons d ds ih =>
    unfold insertCandidate at h
    split at h
    · exact List.mem_cons.1 h
    · rcases List.mem_cons.1 h with rfl | h
      · exact .inr List.mem_cons_self
      · exact (ih h).imp_right (List.mem_cons_of_mem d)

/-- A candidate for a suffix is a look-up result for one of the two kinds of operators. -/
theorem mem_operatorCandidates {upcoming : List String} {candidate : Nat × IndexedEntry}
    (h : candidate ∈ operatorCandidates ix upcoming) :
    candidate ∈ ix.lookup .postfixOp upcoming ∨ candidate ∈ ix.lookup .infixOp upcoming := by
  unfold operatorCandidates at h
  revert h
  induction ix.lookup .postfixOp upcoming with
  | nil => exact .inr
  | cons c cs ih =>
    intro h
    rcases mem_insertCandidate h with rfl | h
    · exact .inl List.mem_cons_self
    · exact (ih h).imp_left (List.mem_cons_of_mem c)

/-- A suffix moves or declines. -/
theorem moves_suffix (hx : ix.Arranged) (hi : inner.Progresses ix n) (min : Precedence)
    (lhs : Expr) : Moves n (suffix ix inner min lhs) := by
  refine moves_state_bind (fun _ => rfl) fun upcoming => ?_
  cases hcandidates : operatorCandidates ix upcoming with
  | nil => exact moves_juxtapose hi.toMoving min lhs
  | cons top others =>
    dsimp only
    split
    · refine moves_firstOf fun candidate hc => ?_
      rw [← hcandidates] at hc
      rcases mem_operatorCandidates hc with hc | hc
      all_goals
        obtain ⟨he, -, hl, -⟩ := Index.of_mem_lookup hx hc
        exact moves_tryOperator hi min lhs hl he
    · exact moves_none

/-- At the end of the tokens no operator follows. -/
theorem suffix_of_ahead_nil (hx : ix.Arranged) (min : Precedence) (lhs : Expr) {p : Parser}
    (hp : p.ahead = []) : suffix ix inner min lhs p = (none, p) := by
  have hc : operatorCandidates ix (Token.raws p.ahead) = [] := by
    rw [hp, operatorCandidates, show Token.raws [] = [] from rfl, Index.lookup_nil hx,
      Index.lookup_nil hx, List.foldr_nil]
  unfold suffix
  rw [bind_apply, show (upcoming p).1 = Token.raws p.ahead from rfl, hc]
  show juxtapose ix inner min lhs p = _
  unfold juxtapose
  cases (ix.byName? "Multiply").bind IndexedEntry.precedence? with
  | none => rfl
  | some precedence =>
    dsimp only
    rw [bind_apply, show (atEnd p).1 = p.ahead.isEmpty from rfl, hp, List.isEmpty_nil,
      Bool.or_true, if_pos rfl]
    rfl

/-- At the end of the buffer there is no suffix. -/
theorem suffixes_of_ahead_nil (hx : ix.Arranged) (min : Precedence) (lhs : Expr) {p : Parser}
    (hp : p.ahead = []) : suffixes ix inner min lhs p = (lhs, p) := by
  have hround : suffixRound ix inner min lhs p = ((lhs, false), p) := by
    unfold suffixRound
    rw [bind_apply, suffix_of_ahead_nil hx min lhs hp]
    rfl
  rw [suffixes, loop, hround]

/-- A round of suffixes does not go back. -/
theorem onward_suffixRound (hx : ix.Arranged) (hi : inner.Progresses ix n) (min : Precedence)
    (lhs : Expr) : Onward n (suffixRound ix inner min lhs) := by
  refine onward_bind (moves_suffix hx hi min lhs).toOnward fun o => ?_
  split <;> exact onward_pure _

/-- Suffixes end where the operand did or later. -/
theorem onward_suffixes (hx : ix.Arranged) (hi : inner.Progresses ix n) (min : Precedence)
    (lhs : Expr) : Onward n (suffixes ix inner min lhs) :=
  onward_loop (onward_suffixRound hx hi min) lhs

theorem onward_repeating (text : String) : Onward n (repeating text) := by
  refine onward_bind onward_get fun q => ?_
  split
  · exact onward_bind (onward_advance _) fun _ => onward_pure _
  · exact onward_pure _

/-- A numeral ends where it began or later. -/
theorem onward_numeral : Onward n numeral := by
  rw [numeral_eq]
  exact onward_bind onward_get fun _ =>
    onward_bind (onward_advance _) fun _ => onward_repeating _

/-- A number at the cursor is part of the numeral. -/
theorem lt_numeral {p : Parser} {t : Token} (hp : p.AtLevel n) (hh : p.ahead.head? = some t)
    (ht : t.kind = .number) : p.index < (numeral p).2.index := by
  obtain ⟨ts, hts⟩ : ∃ ts, p.ahead = t :: ts := by
    cases ha : p.ahead with
    | nil => rw [ha] at hh; simp at hh
    | cons u us =>
      rw [ha, List.head?_cons, Option.some.injEq] at hh
      exact ⟨us, by rw [hh]⟩
  have hl : 0 < (digitGroups p.ahead).2 := by
    rw [hts]
    cases ts with
    | nil => simp [digitGroups, ht]
    | cons sep rest =>
      simp only [digitGroups, ht, if_true]
      split <;> simp
  exact (consumes_bind (consumes_advance hl) fun _ => onward_repeating _).lt p hp
    (by rw [hts]; simp)

theorem onward_textToken : Onward n textToken := by
  refine onward_bind onward_peek fun t => ?_
  split
  · split
    · exact onward_bind (onward_advance 1) fun _ => onward_pure _
    · exact onward_pure _
  · exact onward_pure _

/-- A text consumes its command at least. -/
theorem consumes_text : Consumes n text := by
  refine consumes_bind (consumes_advance Nat.one_pos) fun _ => ?_
  refine onward_bind onward_index fun start => onward_bind (onward_matchToken _) fun opened => ?_
  split
  · refine onward_bind onward_textToken fun text => ?_
    refine onward_bind onward_matchCloseGroup fun closed => ?_
    split
    · exact onward_pure _
    · exact onward_error _ _ _
  · exact onward_pure _

/-- An operand between delimiters does not go back. -/
theorem onward_delimited (hi : inner.Moving n) (close : List String) :
    Onward n (delimited inner close) := by
  refine onward_bind (onward_matchTokens _) fun closed => ?_
  split
  · exact onward_pure _
  · refine onward_bind (hi.expression _).toOnward fun body => ?_
    refine onward_bind (onward_matchTokens _) fun closed => ?_
    split <;> exact onward_pure _

/-- A matchfix operator consumes its opening delimiter or declines. -/
theorem moves_tryMatchfix (hi : inner.Progresses ix n) {candidate : Nat × IndexedEntry}
    (hl : 0 < candidate.1) (he : candidate.2 ∈ ix.latest) :
    Moves n (tryMatchfix inner candidate) := by
  unfold tryMatchfix
  obtain ⟨length, entry⟩ := candidate
  dsimp only at hl he ⊢
  split
  · exact moves_none.rewinding
  · refine Consumes.moves_rewinding (consumes_bind (consumes_advance hl) fun _ => ?_)
    refine onward_bind (onward_delimited hi.toMoving _) fun body => ?_
    split
    · exact onward_pure _
    · split
      · exact hi.handler entry he _ ‹_› _ _
      · exact onward_pure _

theorem moves_matchfix (hx : ix.Arranged) (hi : inner.Progresses ix n) :
    Moves n (matchfix ix inner) := by
  refine moves_state_bind (fun _ => rfl) fun upcoming => moves_firstOf fun candidate hc => ?_
  obtain ⟨he, -, hl, -⟩ := Index.of_mem_lookup hx hc
  exact moves_tryMatchfix hi hl he

theorem onward_takeEnvironmentName : Onward n takeEnvironmentName := by
  refine onward_bind onward_get fun p => ?_
  exact onward_bind (onward_advance _) fun _ => onward_pure _

/-- What cannot stand in a cell is consumed. -/
theorem consumes_unexpectedInCell (t : Tabular) : Consumes n (unexpectedInCell t) := by
  refine consumes_state_bind (fun _ => rfl) fun start => ?_
  refine consumes_bind (consumes_advance Nat.one_pos) fun _ => ?_
  exact onward_bind (onward_error _ _ _) fun _ => onward_pure _

/-- Filling a cell does not go back. -/
theorem onward_fillCell (t : Tabular) (o : Option Expr) : Onward n (fillCell t o) := by
  cases o with
  | some e => exact onward_pure _
  | none => exact onward_bind (consumes_unexpectedInCell t).toOnward fun _ => onward_pure _

/-- A round over the cells does not go back. -/
theorem onward_tabularStep (hi : inner.Moving n) (t : Tabular) :
    Onward n (tabularStep inner t) := by
  obtain ⟨next, heq, hround⟩ := exists_tabularRound inner t
  rw [heq]
  refine onward_bind onward_peek fun o => ?_
  have h := hround o
  generalize next o = r at h ⊢
  cases h with
  | ended => exact onward_pure _
  | cell | row => exact onward_bind (onward_advance 1) fun _ => onward_pure _
  | closed =>
    exact onward_bind (onward_advance 1) fun _ =>
      onward_bind onward_takeEnvironmentName fun _ => onward_pure _
  | filled => exact onward_bind (consumes_unexpectedInCell t).toOnward fun _ => onward_pure _
  | empty => exact onward_bind (hi.expression _).toOnward fun _ => onward_fillCell t _

/-- A round in an environment that wants another one has consumed a token: a separator, one that
cannot be part of a cell, or those of an expression. -/
theorem lt_tabularStep (hi : inner.Moving n) (t : Tabular) {p : Parser} (hp : p.AtLevel n)
    (h : (tabularStep inner t p).1.2 = true) : p.index < (tabularStep inner t p).2.index := by
  have hbad : Consumes n (do return (← unexpectedInCell t, true) : Reading (Tabular × Bool)) :=
    consumes_bind (consumes_unexpectedInCell t) fun _ => onward_pure _
  have hsep : ∀ u : Tabular × Bool, Consumes n (do Reading.advance 1; return u) :=
    fun u => consumes_bind (consumes_advance Nat.one_pos) fun _ => onward_pure u
  obtain ⟨o, r, hhead, hround, heq⟩ := tabularRound_apply inner t p
  rw [heq] at h ⊢
  -- only where no token comes next is nothing consumed, and that round is the last one
  have hne : ∀ token, p.ahead.head? = some token → p.ahead ≠ [] := fun _ ht hnil => by
    rw [hnil] at ht
    cases ht
  cases hround with
  | ended => exact absurd h Bool.false_ne_true
  | cell | row => exact (hsep _).lt p hp (hne _ hhead)
  | closed => exact absurd h Bool.false_ne_true
  | filled => exact hbad.lt p hp (hne _ hhead)
  | empty =>
    have hm := hi.expression .loosest
    have hne := hne _ hhead
    rw [bind_apply]
    cases ho : (inner.expression .loosest p).1 with
    | some e => exact hm.lt p hp hne (by rw [ho]; simp)
    | none =>
      -- no expression was read, so the cursor is where it was
      have hq := (hm.conserves p hp).ahead_ne_nil (hm.eq p hp ho) hne
      have hlt := hbad.lt _ ((hm.conserves p hp).atLevel hp) hq
      rwa [hm.eq p hp ho] at hlt

/-- Rounds over the cells do not go back. -/
theorem onward_tabular (hi : inner.Moving n) : Onward n (tabular inner) :=
  onward_loop (onward_tabularStep hi) {}

/-- The loop over the cells of an environment ends by itself. -/
theorem repeats_tabular (hi : inner.Moving n) {p : Parser} (hp : p.AtLevel n) :
    Repeats (tabularStep inner) {} p (tabular inner p).1 (tabular inner p).2 :=
  repeats_loop (fun t => (onward_tabularStep hi t).conserves)
    (fun t _ hp h => lt_tabularStep hi t hp h) {} p hp

/-- An environment entry does not go back, by its routine either. -/
theorem onward_tryEnvironment (hi : inner.Progresses ix n) (cells : Expr) {entry : IndexedEntry}
    (he : entry ∈ ix.latest) : Onward n (tryEnvironment inner cells entry) := by
  unfold tryEnvironment
  split
  · exact onward_rewinding (hi.handler entry he _ ‹_› _ _)
  · exact onward_pure _

/-- An environment consumes its command or declines. -/
theorem moves_environment (hi : inner.Progresses ix n) : Moves n (environment ix inner) := by
  refine Consumes.moves_rewinding (consumes_bind (consumes_advance Nat.one_pos) fun _ => ?_)
  refine onward_bind onward_takeEnvironmentName fun name => ?_
  split
  · exact onward_pure _
  · split
    · exact onward_pure _
    · refine onward_bind (onward_tabular hi.toMoving) fun t => onward_firstOf fun entry he => ?_
      exact onward_tryEnvironment hi _ (Index.environments_subset ix _ he)

/-- A prefix operator consumes its spelling or declines. -/
theorem moves_tryPrefixOp (hi : inner.Progresses ix n) (min : Precedence)
    {candidate : Nat × IndexedEntry} (hl : 0 < candidate.1) (he : candidate.2 ∈ ix.latest) :
    Moves n (tryPrefixOp inner min candidate) := by
  unfold tryPrefixOp
  obtain ⟨length, entry⟩ := candidate
  dsimp only at hl he ⊢
  split
  · exact moves_none
  · refine Consumes.moves_rewinding (consumes_bind (consumes_advance hl) fun _ => ?_)
    split
    · exact hi.handler entry he _ ‹_› _ _
    · exact onward_bind (hi.expression _).toOnward fun _ => onward_pure _

theorem moves_prefixOperation (hx : ix.Arranged) (hi : inner.Progresses ix n) (min : Precedence) :
    Moves n (prefixOperation ix inner min) := by
  refine moves_state_bind (fun _ => rfl) fun upcoming => moves_firstOf fun candidate hc => ?_
  obtain ⟨he, -, hl, -⟩ := Index.of_mem_lookup hx hc
  exact moves_tryPrefixOp hi min hl he

/-- The arguments of a function do not go back. -/
theorem onward_functionArguments (hi : inner.Moving n) (head : String) :
    Onward n (functionArguments inner head) := by
  refine onward_bind (onward_argumentList hi) fun arguments => ?_
  split
  · exact onward_pure _
  · refine onward_bind (hi.expression _).toOnward fun argument => ?_
    split <;> exact onward_pure _

/-- An entry for a symbol consumes its spelling or declines. -/
theorem moves_trySymbol (hi : inner.Progresses ix n) {candidate : Nat × IndexedEntry}
    (hl : 0 < candidate.1) (he : candidate.2 ∈ ix.latest) :
    Moves n (trySymbol inner candidate) := by
  obtain ⟨length, entry⟩ := candidate
  refine Consumes.moves_rewinding (consumes_bind (consumes_advance hl) fun _ => ?_)
  dsimp only at he ⊢
  split
  · exact hi.handler entry he _ ‹_› _ _
  · split
    · exact onward_bind (onward_functionArguments hi.toMoving _) fun _ => onward_pure _
    · exact onward_pure _

/-- A name takes up at least one token. -/
theorem length_readIdentifier? {tokens rest : List Token} {name : String}
    (h : Name.readIdentifier? tokens = some (name, rest)) : rest.length < tokens.length := by
  cases tokens with
  | nil => cases h
  | cons t ts =>
    rw [List.length_cons]
    cases Name.readsOff_of_readIdentifier? h with
    | char | symbol => exact Nat.lt_succ_self _
    | accent _ _ harg =>
      have := Name.length_argument? harg
      omega
    | typeface _ _ hg =>
      have := Name.length_group? hg
      omega

/-- A name takes at least one token. -/
theorem identifier?_eq_some {tokens : List Token} {name : String} {length : Nat}
    (h : Name.identifier? tokens = some (name, length)) : 0 < length := by
  obtain ⟨⟨name', rest⟩, hr, heq⟩ := Option.map_eq_some_iff.1 h
  obtain ⟨-, rfl⟩ := Prod.mk.inj heq
  have hl := length_readIdentifier? hr
  dsimp only
  omega

/-- A name that is read as written consumes its tokens. -/
theorem moves_namedSymbol (hi : inner.Moving n) : Moves n (namedSymbol inner) := by
  refine moves_state_bind (fun _ => rfl) fun p => ?_
  dsimp only
  cases heq : Name.identifier? p.ahead with
  | none => exact moves_none
  | some found =>
    obtain ⟨name, length⟩ := found
    dsimp only
    have hl := identifier?_eq_some heq
    refine Consumes.moves (consumes_bind (consumes_advance hl) fun _ => ?_) fun q => ?_
    · split
      · refine onward_bind (onward_argumentList hi) fun arguments => ?_
        split <;> exact onward_pure _
      · exact onward_pure _
    · rw [bind_apply]
      split
      · rw [bind_apply]
        cases (argumentList inner (Reading.advance length q).2).1 <;> exact nofun
      · exact nofun

theorem moves_symbol (hx : ix.Arranged) (hi : inner.Progresses ix n) :
    Moves n (symbol ix inner) := by
  refine moves_state_bind (fun _ => rfl) fun upcoming => ?_
  refine moves_orElse (moves_firstOf fun candidate hc => ?_) (fun _ => rfl) (moves_namedSymbol hi.toMoving)
  obtain ⟨he, -, hl, -⟩ := Index.of_mem_lookup hx hc
  exact moves_trySymbol hi hl he

/-- What begins an operand moves or declines, whichever token it begins with. -/
theorem moves_primaryFrom (hx : ix.Arranged) (hi : inner.Progresses ix n) (min : Precedence)
    (t : Token) : Moves n (primaryFrom ix inner min t) := by
  apply primaryFrom_cases
  case group =>
    exact fun _ =>
      (consumes_bind (consumes_braceGroup hi.toMoving) fun _ => onward_pure _).moves fun _ => nofun
  case closing => exact fun _ => moves_none
  case text =>
    exact fun _ => (consumes_bind consumes_text fun _ => onward_pure _).moves fun _ => nofun
  case others =>
    refine moves_firstOf fun r hr => ?_
    apply alternative_cases hr
    case fence => exact moves_matchfix hx hi
    case environment => exact fun _ => moves_environment hi
    case skipped => exact moves_none
    case prefixOp => exact moves_prefixOperation hx hi min
    case symbol => exact moves_symbol hx hi

theorem moves_primary (hx : ix.Arranged) (hi : inner.Progresses ix n) (min : Precedence) :
    Moves n (primary ix inner min) := by
  have hfrom := moves_primaryFrom hx hi min
  -- at the end, at a number, and at any other token
  have hnone : ∀ p : Parser, p.ahead.head? = none → primary ix inner min p = (none, p) := by
    intro p hh
    rw [primary, peek_bind_apply, hh]
    rfl
  have hnumber : ∀ (p : Parser) t, p.ahead.head? = some t → t.kind = .number →
      primary ix inner min p = (numeral >>= fun e => pure (some e)) p := by
    intro p t hh ht
    rw [primary, peek_bind_apply, hh]
    dsimp only
    rw [if_pos ht]
  have hother : ∀ (p : Parser) t, p.ahead.head? = some t → t.kind ≠ .number →
      primary ix inner min p = primaryFrom ix inner min t p := by
    intro p t hh ht
    rw [primary, peek_bind_apply, hh]
    dsimp only
    rw [if_neg ht]
  refine ⟨onward_bind onward_peek fun o => ?_, fun p hp ha hs => ?_, fun p hp hs => ?_⟩
  · cases o with
    | none => exact onward_pure _
    | some t =>
      dsimp only
      split
      · exact onward_bind onward_numeral fun _ => onward_pure _
      · exact (hfrom t).toOnward
  · cases hh : p.ahead.head? with
    | none => exact absurd (List.head?_eq_none_iff.1 hh) ha
    | some t =>
      by_cases ht : t.kind = .number
      · rw [hnumber p t hh ht]
        exact lt_numeral hp hh ht
      · rw [hother p t hh ht] at hs ⊢
        exact (hfrom t).lt p hp ha hs
  · cases hh : p.ahead.head? with
    | none => rw [hnone p hh]
    | some t =>
      by_cases ht : t.kind = .number
      · rw [hnumber p t hh ht] at hs
        exact absurd hs nofun
      · rw [hother p t hh ht] at hs ⊢
        exact (hfrom t).eq p hp hs

end Parser

namespace Nested

open MathMarkup.Parser Reading

variable {ix : Index} {n : Nat} {inner : Nested}

/-- An operand with its suffixes moves or declines. -/
theorem moves_operation (hx : ix.Arranged) (hi : inner.Progresses ix n) (min : Precedence) :
    Moves n (operation ix inner min) := by
  refine moves_bind (hi.primary min) ?_ ?_ ?_
  · rfl
  · exact fun lhs => onward_bind (onward_suffixes hx hi min lhs) fun _ => onward_pure _
  · exact fun _ _ => nofun

/-- Going a level deeper changes nothing about where the cursor ends. -/
theorem moves_deeper {step : Reading (Option Expr)} (h : Moves n step) :
    Moves (n + 1) (deeper step) := by
  -- past either limit nothing is read, and below them the step is as it was
  refine ⟨⟨conserves_deeper h.conserves, fun p hp => ?_⟩, fun p hp ha hs => ?_, fun p hp hs => ?_⟩
  · rw [deeper_apply]
    split
    · exact Nat.le_refl _
    · split
      · exact Nat.le_refl _
      · exact h.le _ hp.enter
  · rw [deeper_apply] at hs ⊢
    split at hs
    · exact absurd rfl hs
    · rw [if_neg ‹_›]
      split at hs
      · exact absurd rfl hs
      · rw [if_neg ‹_›]
        exact h.lt _ hp.enter ha hs
  · rw [deeper_apply] at hs ⊢
    split at hs
    · rw [if_pos ‹_›]
    · rw [if_neg ‹_›]
      split at hs
      · rw [if_pos ‹_›]
        rfl
      · rw [if_neg ‹_›]
        exact h.eq _ hp.enter hs

end Nested

/-! ## Routines -/

/-- The custom routines of the usable entries never leave the cursor before where they were
called. -/
def Index.NeverRetreats (ix : Index) : Prop :=
  ∀ e ∈ ix.latest, ∀ handler, e.parse = some handler → ∀ n lhs precedence (p : Parser),
    p.AtLevel n →
    p.index ≤ (Parser.runHandler (Nested.atDepth ix n) handler lhs precedence p).2.index

/-- A routine none of whose requests, whatever the responses before, is a bad one. -/
def Routine.Avoids {Request : Type} {Response : Request → Type} {α : Type} (bad : Request → Prop) :
    Routine Request Response α → Prop
  | .done _ => True
  | .ask q next => ¬ bad q ∧ ∀ x, (next x).Avoids bad

/-- A parse routine that never moves the cursor to a position of its choice. -/
def ParseHandler.NeverSeeks (handler : ParseHandler) : Prop :=
  ∀ lhs precedence, (handler lhs precedence).Avoids fun q => ∃ i, q = .setIndex i

/-- What such a routine asks for never leads back. -/
theorem Parser.onward_runHandler {n : Nat} {inner : Nested} (hi : inner.Moving n)
    {handler : ParseHandler} (h : handler.NeverSeeks) (lhs : Option Expr)
    (precedence : Precedence) : Reading.Onward n (runHandler inner handler lhs precedence) := by
  have hrun : ∀ r : ParseRoutine (Option Expr), (r.Avoids fun q => ∃ i, q = .setIndex i) →
      Reading.Onward n (r.run (answer inner)) := by
    intro r ha
    -- on the requests of the routine; the one that could lead back is not among them
    induction r with
    | done a => exact Reading.onward_pure a
    | ask q next ih =>
      refine Reading.onward_bind ?_ fun x => ih x (ha.2 x)
      cases q with
      | setIndex i => exact absurd ⟨i, rfl⟩ ha.1
      | index => exact Reading.onward_index
      | atEnd => exact Reading.onward_atEnd
      | peek => exact Reading.onward_peek
      | next => exact Reading.onward_next
      | matchToken raw => exact Reading.onward_matchToken raw
      | matchTokens raws => exact Reading.onward_matchTokens raws
      | markup start stop => exact Reading.onward_of_state fun _ => rfl
      | group => exact onward_group hi
      | argument => exact onward_argument hi
      | optionalArgument => exact onward_optionalArgument hi
      | argumentList => exact onward_argumentList hi
      | expression min => exact (hi.expression min).toOnward
      | error code arg start => exact Reading.onward_error code arg start
      | warn w => exact Reading.onward_warn w
      | takeWarnings => exact Reading.onward_takeWarnings
  exact hrun _ (h lhs precedence)

namespace Nested

open MathMarkup.Parser Reading

variable {ix : Index} {n : Nat} {inner : Nested}

/-- At every level a reading moves or declines, by induction on the levels that are left, if the
routines never go back where that is so. -/
theorem progresses_of_handlers (hx : ix.Arranged)
    (hh : ∀ n, (atDepth ix n).Moving n → (atDepth ix n).Progresses ix n) (n : Nat) :
    (atDepth ix n).Progresses ix n := by
  induction n with
  | zero =>
    have h : Reading.Moves 0 giveUp :=
      ⟨⟨(conserves_atDepth ix 0).expression .loosest, fun _ _ => Nat.le_refl _⟩,
        fun _ _ _ hs => absurd rfl hs, fun _ _ _ => rfl⟩
    exact hh 0 ⟨fun _ => h, fun _ => h⟩
  | succ n ih =>
    exact hh (n + 1) ⟨fun min => moves_deeper (moves_operation hx ih min),
      fun min => moves_deeper (Parser.moves_primary hx ih min)⟩

/-- By induction on the levels, readers at every level move or decline. -/
theorem progresses_atDepth (hx : ix.Arranged) (hr : ix.NeverRetreats) (n : Nat) :
    (atDepth ix n).Progresses ix n := by
  refine progresses_of_handlers hx (fun n hi => ⟨hi, ?_⟩) n
  exact fun e he handler hs lhs precedence =>
    ⟨Parser.conserves_runHandler (conserves_atDepth ix n) _ _ _,
      hr e he handler hs n lhs precedence⟩

end Nested

/-- Routines that never move the cursor to a position of their choice never go back. -/
theorem Index.neverRetreats_of_neverSeeks {ix : Index} (hx : ix.Arranged)
    (h : ∀ e ∈ ix.latest, ∀ handler, e.parse = some handler → handler.NeverSeeks) :
    ix.NeverRetreats := by
  have hp := Nested.progresses_of_handlers hx fun n hi => ⟨hi, fun e he handler hs lhs precedence =>
    Parser.onward_runHandler hi (h e he handler hs) lhs precedence⟩
  exact fun e he handler hs n lhs precedence p hl =>
    ((hp n).handler e he handler hs lhs precedence).le p hl

end MathMarkup
