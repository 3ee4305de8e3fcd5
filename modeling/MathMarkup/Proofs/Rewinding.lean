import MathMarkup.Lexicon.Recipe
import MathMarkup.Proofs.Progress
import MathMarkup.Transcoder

/-!
# What an abandoned attempt leaves behind

The parser tries one alternative after another: entries with the same trigger, delimiters that may
turn out not to be closed, arguments in brackets that may not be there. When one does not work out
the parser goes back, and the next one should find what the first one found.

Going back is a matter of the cursor alone (`Reading.rewinding`). The cursor does come back to the
number it had, but the buffer stays as the attempt left it, and the argument of a command may have
cut a digit off a number meanwhile. So the state after an abandoned attempt is the one before it up
to cuts (`Parser.Rewound`): the next alternative reads the same markup, in the same tokens if
nothing was cut, but possibly in smaller ones (`exists_attempt_cuts`).
-/

namespace MathMarkup

/-- Cutting makes a list longer, so tokens that did not become more were not cut. -/
theorem Token.Splits.eq_of_length_eq {ts us : List Token} (h : Token.Splits ts us)
    (hl : us.length = ts.length) : us = ts := by
  cases h with
  | refl => rfl
  | @tail vs _ hcuts hcut =>
    have hle := Token.Splits.length_le hcuts
    rw [hcut.length] at hl
    omega

namespace Parser

/-- The parse stands where it stood, in a buffer that comes from the earlier one by cuts. -/
structure Rewound (p q : Parser) : Prop where
  index : q.index = p.index
  splits : Token.Splits p.tokens q.tokens
  /-- Unless something was cut, the same tokens are on either side of the cursor. -/
  uncut : q.tokens.length = p.tokens.length → q.behind = p.behind ∧ q.ahead = p.ahead

/-- The cursor and the tokens of the buffer together determine both sides. -/
theorem sides_eq {p q : Parser} (hi : q.index = p.index) (ht : q.tokens = p.tokens) :
    q.behind = p.behind ∧ q.ahead = p.ahead := by
  have hlen : q.behind.reverse.length = p.behind.reverse.length := by
    rw [List.length_reverse, List.length_reverse]
    exact hi
  obtain ⟨hbehind, hahead⟩ := List.append_inj ht hlen
  exact ⟨List.reverse_injective hbehind, hahead⟩

/-- At the same place, with numbers cut at most, a state is rewound. -/
theorem rewound_of_splits {p q : Parser} (hi : q.index = p.index)
    (hs : Token.Splits p.tokens q.tokens) : Rewound p q where
  index := hi
  splits := hs
  uncut hl := sides_eq hi (hs.eq_of_length_eq hl)

/-- A cursor that is moved back to where it was gets there, as the buffer never gets shorter. -/
theorem index_seek_of_follows {p q : Parser} (h : Follows p (q.seek p.index)) :
    (q.seek p.index).index = p.index := by
  have hlen := h.length_le
  rw [tokens_seek] at hlen
  rw [index_seek]
  exact Nat.min_eq_left (Nat.le_trans p.index_le_length hlen)

theorem rewound_refl (p : Parser) : Rewound p p :=
  rewound_of_splits rfl .refl

/-- Rewound twice is rewound. -/
theorem Rewound.trans {p q r : Parser} (h₁ : Rewound p q) (h₂ : Rewound q r) : Rewound p r :=
  rewound_of_splits (h₂.index.trans h₁.index) (Relation.ReflTransGen.trans h₁.splits h₂.splits)

/-- The markup of the buffer is the same, whatever was cut. -/
theorem Rewound.text {p q : Parser} (h : Rewound p q) :
    Token.text q.tokens = Token.text p.tokens :=
  h.splits.text

end Parser

namespace Reading

open MathMarkup.Parser (Rewound Follows rewound_of_splits rewound_refl)

variable {α β : Type} {n : Nat}

/-- A reading that goes back to where it began when it has nothing to give. -/
def Restores (n : Nat) (r : Reading (Option α)) : Prop :=
  ∀ p q : Parser, p.AtLevel n → r p = (none, q) → Rewound p q

theorem restores_none : Restores n (pure none : Reading (Option α)) := by
  intro p q _ h
  obtain ⟨-, rfl⟩ := Prod.mk.inj h
  exact rewound_refl p

/-- What goes back by itself never declines elsewhere. The buffer did not get shorter, so the
number of the cursor is still in range. -/
theorem restores_rewinding {step : Reading (Option α)} (h : Conserves n (rewinding step)) :
    Restores n (rewinding step) := by
  intro p q hp hq
  have hf : Follows p q := by
    have := h p hp
    rw [hq] at this
    exact this
  rcases hstep : step p with ⟨_ | a, r⟩
  · rw [rewinding_of_none hstep] at hq
    obtain ⟨-, rfl⟩ := Prod.mk.inj hq
    exact rewound_of_splits (Parser.index_seek_of_follows hf) hf.splits
  · rw [rewinding_of_some hstep] at hq
    exact absurd (congrArg Prod.fst hq) (Option.some_ne_none a)

/-- After all alternatives have declined, the parse still stands where the first one began. -/
theorem restores_firstOf {alternative : α → Reading (Option β)} {as : List α}
    (hc : ∀ a ∈ as, Conserves n (alternative a)) (hr : ∀ a ∈ as, Restores n (alternative a)) :
    Restores n (firstOf alternative as) := by
  induction as with
  | nil => exact restores_none
  | cons a as ih =>
    intro p q hp hq
    rw [firstOf, bind_apply] at hq
    rcases ha : alternative a p with ⟨_ | b, r⟩
    · rw [ha] at hq
      have hlevel : r.AtLevel n := by
        have := (hc a List.mem_cons_self).atLevel hp
        rwa [ha] at this
      have hfirst : Rewound p r := hr a List.mem_cons_self p r hp ha
      have hothers := ih (fun x hx => hc x (List.mem_cons_of_mem _ hx))
        (fun x hx => hr x (List.mem_cons_of_mem _ hx))
      exact hfirst.trans (hothers r q hlevel hq)
    · rw [ha] at hq
      exact absurd (congrArg Prod.fst hq) (Option.some_ne_none b)

end Reading

namespace Parser

open Reading

variable {n : Nat} {inner : Nested}

/-! ## The attempts of the parser -/

theorem restores_argumentList (hi : inner.Conserves n) : Restores n (argumentList inner) :=
  restores_rewinding (conserves_argumentList hi)

theorem restores_tryMatchfix (hi : inner.Conserves n) (candidate : Nat × IndexedEntry) :
    Restores n (tryMatchfix inner candidate) :=
  restores_rewinding (conserves_tryMatchfix hi candidate)

theorem restores_trySymbol (hi : inner.Conserves n) (candidate : Nat × IndexedEntry) :
    Restores n (trySymbol inner candidate) :=
  restores_rewinding (conserves_trySymbol hi candidate)

theorem restores_environment (ix : Index) (hi : inner.Conserves n) :
    Restores n (environment ix inner) :=
  restores_rewinding (conserves_environment ix hi)

theorem restores_tryEnvironment (hi : inner.Conserves n) (cells : Expr) (entry : IndexedEntry) :
    Restores n (tryEnvironment inner cells entry) := by
  have hc := conserves_tryEnvironment hi cells entry
  unfold tryEnvironment at hc ⊢
  split at hc
  · exact restores_rewinding hc
  · exact fun p q _ h => absurd (congrArg Prod.fst h) (Option.some_ne_none _)

theorem restores_tryPrefixOp (hi : inner.Conserves n) (min : Precedence)
    (candidate : Nat × IndexedEntry) : Restores n (tryPrefixOp inner min candidate) := by
  have hc := conserves_tryPrefixOp hi min candidate
  unfold tryPrefixOp at hc ⊢
  dsimp only at hc ⊢
  split at hc
  · exact restores_none
  · exact restores_rewinding hc

theorem restores_tryOperator (hi : inner.Conserves n) (min : Precedence) (lhs : Expr)
    (candidate : Nat × IndexedEntry) : Restores n (tryOperator inner min lhs candidate) := by
  unfold tryOperator
  split
  · split
    · refine restores_rewinding (conserves_rewinding ?_)
      exact conserves_bind (conserves_advance _) fun _ => conserves_applyOperator hi _ _ _
    · exact restores_none
  · exact restores_none

/-- Juxtaposition that finds no operand restores the state, but for cuts. -/
theorem restores_juxtapose (ix : Index) (hi : inner.Conserves n) (min : Precedence)
    (lhs : Expr) : Restores n (juxtapose ix inner min lhs) := by
  unfold juxtapose
  split
  · exact restores_none
  · intro p q hp hq
    rw [bind_apply, show (atEnd p).2 = p from rfl] at hq
    split at hq
    · exact restores_none p q hp hq
    · refine restores_rewinding (conserves_rewinding ?_) p q hp hq
      refine conserves_bind (hi.expression _) fun rhs => ?_
      split <;> exact conserves_pure _

/-- An argument in brackets may also be read and found empty, which is no failure: what brackets
close around nothing is consumed, and there is no argument to give. -/
def ClosedEmpty (inner : Nested) (p q : Parser) : Prop :=
  ∃ r : Parser, matchToken "[" p = (true, p.advance 1) ∧
    inner.expression .loosest (p.advance 1) = (none, r) ∧ matchToken "]" r = (true, q)

/-- A token that matches is consumed, and otherwise nothing is. -/
theorem matchToken_apply (raw : String) (p : Parser) :
    matchToken raw p = (true, p.advance 1) ∨ matchToken raw p = (false, p) := by
  rw [matchToken, peek_bind_apply]
  cases p.ahead.head? with
  | none => exact .inr rfl
  | some t =>
    dsimp only
    by_cases hraw : t.raw = raw
    · rw [if_pos hraw]
      exact .inl rfl
    · rw [if_neg hraw]
      exact .inr rfl

/-- An argument in square brackets that is not read leaves the state restored, or the brackets were
empty. -/
theorem rewound_optionalArgument (hi : inner.Conserves n) {p q : Parser} (hp : p.AtLevel n)
    (h : optionalArgument inner p = (none, q)) : Rewound p q ∨ ClosedEmpty inner p q := by
  have hf : Follows p q := by
    have := conserves_optionalArgument hi p hp
    rw [h] at this
    exact this
  rw [optionalArgument, bind_apply, show Reading.index p = (p.index, p) from rfl, bind_apply] at h
  rcases matchToken_apply "[" p with hopen | hopen
  · rw [hopen] at h
    dsimp only at h
    rw [if_pos rfl, bind_apply] at h
    rcases hbody : inner.expression .loosest (p.advance 1) with ⟨body, r⟩
    rw [hbody, bind_apply] at h
    rcases matchToken_apply "]" r with hclose | hclose
    · rw [hclose] at h
      obtain ⟨rfl, rfl⟩ := Prod.mk.inj h
      exact .inr ⟨r, hopen, hbody, hclose⟩
    · -- no bracket closes it: this is where the cursor goes back
      rw [hclose] at h
      obtain ⟨-, rfl⟩ := Prod.mk.inj h
      exact .inl (rewound_of_splits (index_seek_of_follows hf) hf.splits)
  · rw [hopen] at h
    obtain ⟨-, rfl⟩ := Prod.mk.inj h
    exact .inl (rewound_refl p)

/-- Every attempt of the parser that is abandoned restores it, up to cuts: candidates of each kind,
alone or one after another, and what is read without an entry. -/
structure Backtracks (ix : Index) (n : Nat) (inner : Nested) : Prop where
  matchfixes : ∀ cs, Restores n (firstOf (tryMatchfix inner) cs)
  operators : ∀ min lhs cs, Restores n (firstOf (tryOperator inner min lhs) cs)
  prefixOps : ∀ min cs, Restores n (firstOf (tryPrefixOp inner min) cs)
  symbols : ∀ cs, Restores n (firstOf (trySymbol inner) cs)
  environments : ∀ cells es, Restores n (firstOf (tryEnvironment inner cells) es)
  environment : Restores n (environment ix inner)
  juxtapose : ∀ min lhs, Restores n (juxtapose ix inner min lhs)
  argumentList : Restores n (argumentList inner)
  optionalArgument : ∀ p q : Parser, p.AtLevel n → optionalArgument inner p = (none, q) →
    Rewound p q ∨ ClosedEmpty inner p q

/-- At every level of every parse an attempt that is abandoned leaves the parser as it was, up to
cuts, whatever the entries and their routines. -/
theorem backtracks_atDepth (ix : Index) (n : Nat) : Backtracks ix n (Nested.atDepth ix n) := by
  have hi := Nested.conserves_atDepth ix n
  exact {
    matchfixes := fun _ =>
      restores_firstOf (fun _ _ => conserves_tryMatchfix hi _) fun _ _ => restores_tryMatchfix hi _
    operators := fun _ _ _ =>
      restores_firstOf (fun _ _ => conserves_tryOperator hi _ _ _)
        fun _ _ => restores_tryOperator hi _ _ _
    prefixOps := fun _ _ =>
      restores_firstOf (fun _ _ => conserves_tryPrefixOp hi _ _)
        fun _ _ => restores_tryPrefixOp hi _ _
    symbols := fun _ =>
      restores_firstOf (fun _ _ => conserves_trySymbol hi _) fun _ _ => restores_trySymbol hi _
    environments := fun _ _ =>
      restores_firstOf (fun _ _ => conserves_tryEnvironment hi _ _)
        fun _ _ => restores_tryEnvironment hi _ _
    environment := restores_environment ix hi
    juxtapose := fun _ _ => restores_juxtapose ix hi _ _
    argumentList := restores_argumentList hi
    optionalArgument := fun _ _ hp h => rewound_optionalArgument hi hp h }

/-- A function `\foo`, and a later entry for it that reads an argument and then declines. -/
def decliningLexicon : List Entry := [
  (Entry.function "\\foo").named "F",
  (Entry.function "\\foo").parseWith
    (ParseRecipe.handler ⟨"G", [ParseStep.ofName "argument", ParseStep.ofName "decline"]⟩)]

/-- Cuts do happen: the entry that declines leaves `1` `2` where `12` was, so the next one gets the
argument `1`, and the other digit is in the way. Without that entry the argument is `12`. -/
theorem exists_attempt_cuts :
    let ix := (Index.ofEntries decliningLexicon).1
    let p := ofTokens (Token.scan "\\foo12")
    (∃ candidate ∈ ix.lookup .identifier (Token.raws p.ahead),
      (trySymbol (Nested.outermost ix) candidate p).1 = none ∧
        (trySymbol (Nested.outermost ix) candidate p).2.tokens ≠ p.tokens) ∧
    (parseTokens ix (Token.scan "\\foo12")).1 =
      .sequence [.apply "F" [.number "1"], Expr.error .unexpectedToken none "2"] ∧
    (parseTokens (Index.ofEntries (decliningLexicon.take 1)).1 (Token.scan "\\foo12")).1 =
      .apply "F" [.number "12"] := by
  decide +kernel

end Parser
end MathMarkup
