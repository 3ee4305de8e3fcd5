import MathMarkup.Proofs.Enclosure
import MathMarkup.Proofs.Environments
import MathMarkup.Proofs.NameExtent

/-!
# Readers that stay in their group

No reader gets out of a group in which everything that begins also ends: from the inside of some
open groups it leads to the inside of the same groups, perhaps with more environments open in the
innermost one, whose begin commands were set aside as errors (`Parser.Within`). So it does for
fixed rows of tokens, for groups and arguments, for numerals, texts and names, for the cells of an
environment (`Parser.InCells` is kept round by round), and for what goes back where it began.

`Reading.Contained` says it of a reading, `Nested.contained_atDepth` of the readers at every level.
-/

namespace MathMarkup

open MathMarkup.Lexer (leftBrace rightBrace)

namespace Parser

variable {ix : Index} {rest : List Token}

/-! ## What is cut in front of some tokens -/

/-- A cut makes nothing lighter. -/
theorem weight_le_of_cutsOnce {ts us : List Token} (h : Token.CutsOnce ts us) :
    tokensWeight ts ≤ tokensWeight us := by
  obtain ⟨before, right, first, last, -, rfl, rfl⟩ := h
  have hcut : Token.weight ⟨first ++ last, .number⟩ ≤
      Token.weight ⟨first, .number⟩ + Token.weight ⟨last, .number⟩ := by
    simp only [Token.weight, String.utf8ByteSize_append]
    omega
  simp only [tokensWeight_append, tokensWeight]
  omega

/-- Several cuts make nothing lighter. -/
theorem weight_le_of_cuts {ts us : List Token} (h : Token.Cuts ts us) :
    tokensWeight ts ≤ tokensWeight us := by
  induction h with
  | refl => exact Nat.le_refl _
  | tail _ hcut ih => exact Nat.le_trans ih (weight_le_of_cutsOnce hcut)

/-- Each number that is cut stands in one part or the other. -/
theorem cuts_append_left_right {ts rest vs : List Token} (h : Token.Cuts (ts ++ rest) vs) :
    ∃ us rest', vs = us ++ rest' ∧ Token.Cuts ts us ∧ Token.Cuts rest rest' := by
  induction h with
  | refl => exact ⟨ts, rest, rfl, .refl, .refl⟩
  | tail _ hcut ih =>
    obtain ⟨us, rest', rfl, hus, hrest⟩ := ih
    obtain ⟨before, right, first, last, hd, hvs, rfl⟩ := hcut
    rcases List.append_eq_append_iff.1 hvs with ⟨mid, rfl, hmid⟩ | ⟨mid, rfl, hmid⟩
    · refine ⟨us, mid ++ ⟨first, .number⟩ :: ⟨last, .number⟩ :: right, by simp, hus, ?_⟩
      exact .tail hrest ⟨mid, right, first, last, hd, hmid, rfl⟩
    · cases mid with
      | nil =>
        refine ⟨before, ⟨first, .number⟩ :: ⟨last, .number⟩ :: right, rfl, by simpa using hus, ?_⟩
        exact .tail hrest ⟨[], right, first, last, hd, hmid.symm, rfl⟩
      | cons t mid =>
        obtain ⟨rfl, rfl⟩ := List.cons.inj hmid
        refine ⟨before ++ ⟨first, .number⟩ :: ⟨last, .number⟩ :: mid, rest', by simp, ?_, hrest⟩
        exact .tail hus ⟨before, mid, first, last, hd, rfl, rfl⟩

/-- Two rows end at the same place when what is behind them weighs the same. -/
theorem front_eq_of_weight {us vs rest last : List Token} (h : us ++ rest = vs ++ last)
    (hw : tokensWeight rest = tokensWeight last) : us = vs := by
  rcases List.append_eq_append_iff.1 h with ⟨mid, rfl, rfl⟩ | ⟨mid, rfl, rfl⟩
  all_goals
    rw [tokensWeight_append] at hw
    have hlength := length_le_tokensWeight mid
    have hmid : mid = [] := List.eq_nil_of_length_eq_zero (by omega)
    rw [hmid, List.append_nil]

/-- Where a cut makes nothing heavier and the same tokens come last, nothing was cut in these. -/
theorem cuts_of_append {ts us rest : List Token} (h : Token.Cuts (ts ++ rest) (us ++ rest))
    (hw : tokensWeight (us ++ rest) = tokensWeight (ts ++ rest)) : Token.Cuts ts us := by
  obtain ⟨us', rest', heq, hus, hrest⟩ := cuts_append_left_right h
  have hle := weight_le_of_cuts hus
  have hle' := weight_le_of_cuts hrest
  have hsum := congrArg tokensWeight heq
  rw [tokensWeight_append, tokensWeight_append] at hsum hw
  rw [front_eq_of_weight heq (by omega)]
  exact hus

/-! ## Staying in a group -/

/-- Whatever groups the first tokens are inside of, the others are too; more environments may be
open in the innermost one. -/
def Within (ix : Index) (ts us : List Token) : Prop :=
  ∀ rest e below, Inside ix rest (e :: below) ts →
    ∃ e', e ≤ e' ∧ Inside ix rest (e' :: below) us

/-- Tokens are inside of whatever groups they are inside of. -/
theorem within_refl (ts : List Token) : Within ix ts ts :=
  fun _ e _ h => ⟨e, Nat.le_refl e, h⟩

/-- From inside to inside, and on from there. -/
theorem Within.trans {ts us vs : List Token} (h₁ : Within ix ts us) (h₂ : Within ix us vs) :
    Within ix ts vs := by
  intro rest e below h
  obtain ⟨d, hd, hus⟩ := h₁ rest e below h
  obtain ⟨c, hc, hvs⟩ := h₂ rest d below hus
  exact ⟨c, Nat.le_trans hd hc, hvs⟩

/-- Tokens that close what they open lead on in the same group, unless there are begin and end
commands among them. -/
theorem within_drop {ts : List Token} {k : Nat} (hb : Token.Balanced (ts.take k))
    (hf : FrontClear k ts) : Within ix ts (ts.drop k) :=
  fun _ e _ h => ⟨e, Nat.le_refl e, h.drop (Nat.succ_pos _) hb hf⟩

/-- So do fixed raw texts of that sort. -/
theorem within_drop_raws {ts : List Token} {raws : List String} (hr : Token.Harmless raws)
    (h : Token.raws (ts.take raws.length) = raws) : Within ix ts (ts.drop raws.length) :=
  fun _ e _ hin =>
    ⟨e, Nat.le_refl e, hin.drop_raws (Nat.succ_pos _) h hr.boundless hr.balanced⟩

/-- Where the same tokens come last before and after a reading, all that it cut is in front of
them. -/
theorem Passes.cuts {p q : Parser} {passed us vs : List Token} (h : Passes passed p q)
    (hf : Follows p q) (hp : p.ahead = us ++ rest) (hq : q.ahead = vs ++ rest) :
    Token.Cuts us (passed ++ vs) := by
  have hcut := h.ahead
  have hw := hf.splits.weight
  rw [tokens, tokens, h.behind, List.reverse_append, List.reverse_reverse, List.append_assoc,
    tokensWeight_append, tokensWeight_append _ p.ahead] at hw
  rw [hq, hp, ← List.append_assoc] at hcut hw
  exact cuts_of_append hcut (by omega)

/-- Going back over tokens that were passed inside of a group leads to the same place in it: numbers
were cut in the group only. -/
theorem Inside.seek {p q : Parser} {stack left : List Nat} (h : Inside ix rest stack p.ahead)
    (hq : Inside ix rest left q.ahead) {ts : List Token} (hpass : Passes ts p q)
    (hf : Follows p q) : Inside ix rest stack (q.seek p.index).ahead := by
  obtain ⟨us, hus⟩ := h.exists_eq_append
  obtain ⟨vs, hvs⟩ := hq.exists_eq_append
  rw [hpass.sides_seek.2, hvs, ← List.append_assoc]
  exact (hus ▸ h).of_cuts (hpass.cuts hf hus hvs)

end Parser

namespace Reading

open MathMarkup.Parser

variable {α β : Type} {ix : Index} {n : Nat} {pre : List Token → Prop}

/-! ## Contained readings -/

/-- A reading that passes tokens and, wherever the tokens ahead are of some sort, stays in the
groups that it begins in. -/
structure ContainedFrom (ix : Index) (n : Nat) (pre : List Token → Prop) (r : Reading α) : Prop
    extends Passing n r where
  within : ∀ p : Parser, p.AtLevel n → pre p.ahead → Within ix p.ahead (r p).2.ahead

/-- Such a reading wherever it begins. -/
abbrev Contained (ix : Index) (n : Nat) (r : Reading α) : Prop :=
  ContainedFrom ix n (fun _ => True) r

/-- A reading that stays in its group before some tokens does so before fewer. -/
theorem ContainedFrom.mono {pre' : List Token → Prop} {r : Reading α}
    (h : ContainedFrom ix n pre r) (hpre : ∀ ts, pre' ts → pre ts) : ContainedFrom ix n pre' r :=
  ⟨h.toPassing, fun p hp hts => h.within p hp (hpre _ hts)⟩

/-- A reading that moves neither side of the cursor stays where it is. -/
theorem contained_of_sides {r : Reading α} (hc : Conserves n r)
    (h : ∀ p, (r p).2.behind = p.behind ∧ (r p).2.ahead = p.ahead) : ContainedFrom ix n pre r :=
  ⟨passing_of_sides hc h, fun p _ _ => by rw [(h p).2]; exact within_refl _⟩

theorem contained_of_state {r : Reading α} (h : ∀ p, (r p).2 = p) : ContainedFrom ix n pre r :=
  contained_of_sides (conserves_of_state h) fun p => by rw [h p]; exact ⟨rfl, rfl⟩

theorem contained_pure (a : α) : ContainedFrom ix n pre (pure a : Reading α) :=
  contained_of_state fun _ => rfl

/-- Readings in a row stay in the group if the second one does wherever it begins. -/
theorem contained_bind {r : Reading α} {f : α → Reading β} (hr : ContainedFrom ix n pre r)
    (hf : ∀ a, Contained ix n (f a)) : ContainedFrom ix n pre (r >>= f) where
  toPassing := passing_bind hr.toPassing fun a => (hf a).toPassing
  within p hp hts :=
    (hr.within p hp hts).trans ((hf _).within _ (hr.conserves.atLevel hp) trivial)

/-- A look at the state leaves what comes after it to rely on the same tokens. -/
theorem contained_state_bind {r : Reading α} {f : α → Reading β} (hr : ∀ p, (r p).2 = p)
    (hf : ∀ a, ContainedFrom ix n pre (f a)) : ContainedFrom ix n pre (r >>= f) where
  toPassing := passing_bind (passing_of_state hr) fun a => (hf a).toPassing
  within p hp hts := by
    rw [bind_apply, hr p]
    exact (hf _).within p hp hts

/-- A look at the tokens ahead, and then a reading that may rely on it. -/
theorem contained_view_bind {r : Reading α} {f : α → Reading β} {view : List Token → α}
    (hr : ∀ p, r p = (view p.ahead, p))
    (hf : ∀ a, ContainedFrom ix n (fun ts => pre ts ∧ view ts = a) (f a)) :
    ContainedFrom ix n pre (r >>= f) where
  toPassing := passing_bind (passing_of_state fun p => by rw [hr p]) fun a => (hf a).toPassing
  within p hp hts := by
    rw [bind_apply, hr p]
    exact (hf _).within p hp ⟨hts, rfl⟩

/-- What is read after a look at the next token may rely on that token. -/
theorem contained_peek_bind {f : Option Token → Reading β}
    (hf : ∀ t, ContainedFrom ix n (fun ts => pre ts ∧ ts.head? = t) (f t)) :
    ContainedFrom ix n pre (peek >>= f) :=
  contained_view_bind (fun _ => rfl) hf

/-- What is read after a look at the state may rely on the tokens ahead. -/
theorem contained_get_bind {f : Parser → Reading β}
    (hf : ∀ p, ContainedFrom ix n (fun ts => pre ts ∧ ts = p.ahead) (f p)) :
    ContainedFrom ix n pre ((get : Reading Parser) >>= f) where
  toPassing := passing_bind (passing_of_state fun _ => rfl) fun p => (hf p).toPassing
  within p hp hts := (hf p).within p hp ⟨hts, rfl⟩

/-- Going back to where a reading began leads back into its groups. -/
theorem contained_rewinding {step : Reading (Option α)} (h : ContainedFrom ix n pre step) :
    ContainedFrom ix n pre (rewinding step) where
  toPassing := passing_rewinding h.toPassing
  within p hp hts := by
    have hstep := h.within p hp hts
    have hfollows := h.conserves p hp
    obtain ⟨ts, hpass⟩ := h.passes p hp
    rcases hs : step p with ⟨_ | a, q⟩
    · rw [hs] at hstep hfollows hpass
      rw [rewinding_of_none hs]
      -- going back forgets the environments that were begun on the way
      intro rest e below hin
      obtain ⟨e', -, hq⟩ := hstep rest e below hin
      exact ⟨e, Nat.le_refl e, hin.seek hq hpass hfollows⟩
    · rw [hs] at hstep
      rw [rewinding_of_some hs]
      exact hstep

/-- Alternatives one after another. One that declines goes back, and what the next one relies on is
not undone by cuts. -/
theorem contained_firstOf {alternative : α → Reading (Option β)} {as : List α}
    {pre : α → List Token → Prop}
    (hcuts : ∀ a ts us, pre a ts → Token.Cuts ts us → pre a us)
    (h : ∀ a ∈ as, ContainedFrom ix n (pre a) (alternative a))
    (hreturns : ∀ a ∈ as, Returns n (alternative a)) :
    ContainedFrom ix n (fun ts => ∀ a ∈ as, pre a ts) (firstOf alternative as) := by
  induction as with
  | nil => exact contained_pure none
  | cons a as ih =>
    rw [List.forall_mem_cons] at h hreturns
    obtain ⟨hfirst, hothers⟩ := h
    have hlater := ih hothers hreturns.2
    refine ⟨passing_bind hfirst.toPassing fun o => ?_, fun p hp hts => ?_⟩
    · cases o with
      | some b => exact passing_pure _
      | none => exact hlater.toPassing
    · rw [List.forall_mem_cons] at hts
      have hstep := hfirst.within p hp hts.1
      have hback := hreturns.1 p hp
      have hp' := hfirst.conserves.atLevel hp
      rw [firstOf, bind_apply]
      rcases ha : alternative a p with ⟨_ | b, q⟩
      · -- the next one finds what it relies on, perhaps with some numbers cut
        rw [ha] at hstep hback hp'
        have hcut : Token.Cuts p.ahead q.ahead := (hback rfl).ahead
        exact hstep.trans (hlater.within q hp' fun x hx => hcuts x _ _ (hts.2 x hx) hcut)
      · rw [ha] at hstep
        exact hstep

/-- A loop stays in the group if its rounds do, by induction on the slack. -/
theorem contained_loop {round : α → Reading (α × Bool)} (h : ∀ a, Contained ix n (round a))
    (a : α) : Contained ix n (loop round a) := by
  refine ⟨passing_loop (fun a => (h a).toPassing) a, fun p hp _ => ?_⟩
  induction a, p using loop_induction round with
  | last a p b again q heq hloop =>
    have hround := (h a).within p hp trivial
    rw [heq] at hround
    rw [hloop]
    exact hround
  | again a p b q heq hloop ih =>
    have hround := (h a).within p hp trivial
    have hp' := (h a).conserves.atLevel hp
    rw [heq] at hround hp'
    rw [hloop]
    exact hround.trans (ih hp')

/-- Moving on stays in the group where the tokens that are passed do. -/
theorem contained_advance (k : Nat) :
    ContainedFrom ix n (fun ts => Within ix ts (ts.drop k)) (advance k) :=
  ⟨passing_advance k, fun _ _ h => h⟩

end Reading

/-- The triggers and close delimiters of the entries close what they open. -/
structure Index.Harmless (ix : Index) : Prop where
  orderly : ix.Orderly
  trigger : ∀ e ∈ ix.latest, Token.Harmless e.trigger
  close : ∀ e ∈ ix.latest, ∀ close, e.role.close? = some close → Token.Harmless close

/-- The readers inside stay in the groups that they begin in, and go back where they find
nothing. -/
structure Nested.Contained (ix : Index) (n : Nat) (inner : Nested) : Prop where
  tracks : inner.Tracks ix n
  expression : ∀ p, Reading.Contained ix n (inner.expression p)
  primary : ∀ p, Reading.Contained ix n (inner.primary p)
  expressionReturns : ∀ p, Reading.Returns n (inner.expression p)
  primaryReturns : ∀ p, Reading.Returns n (inner.primary p)

namespace Parser

open MathMarkup.Reading

variable {ix : Index} {inner : Nested} {n : Nat} {pre : List Token → Prop} {rest : List Token}

/-! ## Fixed tokens -/

/-- Fixed raw texts come next also after a cut, as long as none of them is a number. -/
theorem raws_of_cutsOnce {raws : List String}
    (hu : ∀ raw ∈ raws, raw.toList.all Char.isDigit = false)
    {ts us : List Token} (h : Token.raws (ts.take raws.length) = raws)
    (hc : Token.CutsOnce ts us) : Token.raws (us.take raws.length) = raws := by
  induction raws generalizing ts us with
  | nil => rfl
  | cons raw raws ih =>
    cases ts with
    | nil => cases h
    | cons t ts =>
      obtain ⟨rfl, hlater⟩ := List.cons.inj h
      rw [List.forall_mem_cons] at hu
      rcases cons_of_cutsOnce hc with ⟨us', rfl, hcut⟩ | ⟨first, last, hd, rfl, -⟩
      · exact congrArg (t.raw :: ·) (ih hu.2 hlater hcut)
      · exact absurd (hd.symm.trans hu.1) Bool.noConfusion

/-- Spellings without digits stand where they stood, whatever numbers are cut. -/
theorem raws_of_cuts {raws : List String} (hu : ∀ raw ∈ raws, raw.toList.all Char.isDigit = false)
    {ts us : List Token} (h : Token.raws (ts.take raws.length) = raws) (hc : Token.Cuts ts us) :
    Token.raws (us.take raws.length) = raws := by
  induction hc with
  | refl => exact h
  | tail _ hcut ih => exact raws_of_cutsOnce hu ih hcut

/-- Spellings that close what they open are passed within the group. -/
theorem contained_matchTokens {raws : List String} (hr : Token.Harmless raws) :
    Contained ix n (matchTokens raws) := by
  refine contained_get_bind fun p => ?_
  split
  next hraws =>
    refine contained_bind ((contained_advance _).mono fun ts hts => ?_) fun _ => contained_pure _
    rw [hts.2]
    exact within_drop_raws hr hraws
  next => exact contained_pure _

/-- A spelling that closes what it opens is passed within the group. -/
theorem contained_matchToken {raw : String} (hr : Token.Harmless [raw]) :
    Contained ix n (matchToken raw) := by
  refine contained_peek_bind fun o => ?_
  cases o with
  | none => exact contained_pure _
  | some t =>
    dsimp only
    split
    next ht =>
      refine contained_bind ((contained_advance 1).mono fun ts hts => ?_) fun _ => contained_pure _
      obtain ⟨us, rfl⟩ := List.head?_eq_some_iff.1 hts.2
      exact within_drop_raws hr (congrArg (fun raw => [raw]) ht)
    next => exact contained_pure _

/-! ## Groups and arguments -/

/-- A closing brace ends the innermost group, and anything else is left alone. -/
theorem inside_matchCloseGroup {p : Parser} {e : Nat} {stack : List Nat}
    (h : Inside ix rest (e :: stack) p.ahead) :
    (∃ q, matchCloseGroup p = (true, q) ∧ Inside ix rest stack q.ahead) ∨
      matchCloseGroup p = (false, p) ∧ ∀ t ∈ p.ahead.head?, t.kind ≠ .closeGroup := by
  rw [matchCloseGroup, peek_bind_apply]
  cases hts : p.ahead with
  | nil =>
    rw [hts] at h
    exact absurd h not_inside_nil
  | cons t ts =>
    rw [hts] at h
    by_cases hk : t.kind = .closeGroup
    · refine .inl ⟨p.advance 1, ?_, ?_⟩
      · simp only [List.head?_cons, hk, ↓reduceIte]
        rfl
      · obtain ⟨-, -, hin⟩ := h.closed (.inr hk)
        rw [ahead_advance_one hts]
        exact hin
    · right
      refine ⟨?_, fun u hu => Option.some.inj hu ▸ hk⟩
      simp only [List.head?_cons, hk, ↓reduceIte]
      rfl

/-- Skipping to the end of a group gets there. -/
theorem inside_skipToCloseGroup {p : Parser} {e : Nat} {stack : List Nat}
    (h : Inside ix rest (e :: stack) p.ahead) (start : Nat) (body : Option Expr) :
    Inside ix rest stack (skipToCloseGroup start body p).2.ahead := by
  have hstate : (skipToCloseGroup start body p).2 = p.advance (groupSpan 0 p.ahead).1 := by
    rw [skipToCloseGroup, get_bind_apply]
    dsimp only
    rw [bind_apply]
    split
    · rfl
    · rfl
  rw [hstate]
  exact (h.skip (Nat.succ_pos _)).2

/-- A group that is read ends at its closing brace. -/
theorem inside_braceGroup (hi : inner.Contained ix n) {p : Parser} (hp : p.AtLevel n)
    {stack : List Nat} {ts : List Token} (hahead : p.ahead = leftBrace :: ts)
    (h : Inside ix rest (0 :: stack) ts) :
    Inside ix rest stack (braceGroup inner p).2.ahead := by
  have hq : (p.advance 1).AtLevel n := (follows_advance 1 p).atLevel hp
  have hin : Inside ix rest (0 :: stack) (p.advance 1).ahead := by
    rw [ahead_advance_one hahead]
    exact h
  rw [braceGroup, bind_apply, bind_apply,
    show Reading.advance 1 (Reading.index p).2 = ((), p.advance 1) from rfl, bind_apply]
  rcases inside_matchCloseGroup hin with ⟨q, hclose, hafter⟩ | ⟨hclose, -⟩
  · rw [hclose]
    exact hafter
  · rw [hclose]
    -- the body may leave environments open, but it is still in the group
    obtain ⟨e, -, hbody⟩ := (hi.expression .loosest).within _ hq trivial _ _ _ hin
    dsimp only
    rw [if_neg Bool.false_ne_true, bind_apply, bind_apply]
    rcases inside_matchCloseGroup hbody with ⟨q, hclose, hafter⟩ | ⟨hclose, -⟩
    · rw [hclose]
      exact hafter
    · rw [hclose]
      exact inside_skipToCloseGroup hbody _ _

/-- A group in braces ends at its own bracket: the body stays inside, or what is left of it is
skipped. -/
theorem contained_braceGroup (hi : inner.Contained ix n) :
    ContainedFrom ix n (fun ts => ∃ t ∈ ts.head?, t.kind = .openGroup) (braceGroup inner) where
  toPassing := (tracks_braceGroup hi.tracks).toPassing
  within p hp hopen rest e below h := by
    obtain ⟨t, ht, hk⟩ := hopen
    obtain ⟨ts, hts⟩ := List.head?_eq_some_iff.1 ht
    rw [hts] at h
    obtain ⟨rfl, hin⟩ := h.opened (.inr hk)
    exact ⟨e, Nat.le_refl e, inside_braceGroup hi hp hts hin⟩

/-- Giving what was read as something that was read moves nothing. -/
theorem contained_some {α : Type} {r : Reading α} (h : ContainedFrom ix n pre r) :
    ContainedFrom ix n pre (r >>= fun a => pure (some a)) :=
  contained_bind h fun _ => contained_pure _

/-- A group of any kind ends at its own bracket. -/
theorem contained_group (hi : inner.Contained ix n) : Contained ix n (group inner) := by
  refine contained_peek_bind fun o => ?_
  cases o with
  | none => exact contained_pure _
  | some t =>
    dsimp only
    split
    next hk =>
      exact (contained_some (contained_braceGroup hi)).mono fun ts hts => ⟨t, hts.2, hk⟩
    next => exact contained_pure _

/-- Taking the first digit off a number leaves the rest of the number in its place. -/
theorem within_takeDigit {p : Parser} {t : Token} {first last : String}
    (ht : p.ahead.head? = some t) (h : splitDigit? t = some (first, last)) :
    Within ix p.ahead (takeDigit first last p).2.ahead := by
  intro rest e below hin
  have hd := all_isDigit_of_splitDigit? h
  obtain ⟨rfl, -, -⟩ := splitDigit?_eq_some h
  obtain ⟨ts, hts⟩ := List.head?_eq_some_iff.1 ht
  rw [hts] at hin
  -- the digit is passed, and the rest of the number is as idle as the whole
  refine ⟨e, Nat.le_refl e, ?_⟩
  show Inside ix rest (e :: below) (⟨last, .number⟩ :: p.ahead.drop 1)
  rw [hts]
  exact .other (idle_digits (all_isDigit_of_append hd).2 _) (hin.number rfl)

/-- An argument stays in the group that it is in, whether it is a group, a digit or an operand. -/
theorem contained_argument (hi : inner.Contained ix n) : Contained ix n (argument inner) where
  toPassing := (tracks_argument hi.tracks).toPassing
  within p hp _ := by
    rw [argument, peek_bind_apply]
    cases hh : p.ahead.head? with
    | none => exact within_refl _
    | some t =>
      dsimp only
      split
      · exact (contained_some (contained_braceGroup hi)).within p hp ⟨t, hh, ‹_›⟩
      · cases hs : splitDigit? t with
        | none => exact (hi.primary _).within p hp trivial
        | some parts => exact within_takeDigit hh hs

/-- An argument in square brackets stays in the group, or goes back to where it began. -/
theorem contained_optionalArgument (hi : inner.Contained ix n) :
    Contained ix n (optionalArgument inner) := by
  have hbracketed : Contained ix n (bracketed inner) := by
    refine contained_bind (contained_matchToken (by decide)) fun opened => ?_
    split
    · refine contained_bind (hi.expression _) fun body => ?_
      refine contained_bind (contained_matchToken (by decide)) fun closed => ?_
      split <;> exact contained_pure _
    · exact contained_pure _
  rw [optionalArgument_eq]
  exact contained_bind (contained_rewinding hbracketed) fun _ => contained_pure _

/-- Arguments in parentheses stay in the group, or go back to where they began. -/
theorem contained_argumentList (hi : inner.Contained ix n) :
    Contained ix n (argumentList inner) := by
  refine contained_rewinding (contained_bind (contained_matchToken (by decide)) fun opened => ?_)
  split
  · refine contained_bind (contained_matchToken (by decide)) fun closed => ?_
    split
    · exact contained_pure _
    · refine contained_bind (hi.expression _) fun body => ?_
      refine contained_bind (contained_matchToken (by decide)) fun closed => ?_
      split <;> exact contained_pure _
  · exact contained_pure _

/-! ## Routines and operators -/

/-- A request that has an expression read stays in the group. -/
theorem contained_answer (hi : inner.Contained ix n) {q : ParseRequest} (hq : q.Reads) :
    Contained ix n (answer inner q) := by
  cases q with
  | group => exact contained_group hi
  | argument => exact contained_argument hi
  | optionalArgument => exact contained_optionalArgument hi
  | expression min => exact hi.expression min
  | _ => exact hq.elim

/-- A routine that only has expressions read stays in the group. -/
theorem contained_runHandler (hi : inner.Contained ix n) {handler : ParseHandler}
    (hh : handler.KeepsErrors) (lhs : Option Expr) (p : Precedence) :
    Contained ix n (runHandler inner handler lhs p) := by
  -- the routine asks for one reading after another, and each of them is contained
  have hrun : ∀ r : ParseRoutine (Option Expr), r.KeepsErrors →
      Contained ix n (r.run (answer inner)) := by
    intro r hr
    induction r with
    | done a => exact contained_pure a
    | ask q next ih =>
      exact contained_bind (contained_answer hi hr.1) fun x => ih x (hr.2 x).1
  exact hrun _ (hh lhs p)

theorem contained_infixApplication (hi : inner.Contained ix n) (entry : IndexedEntry) (lhs : Expr)
    (p : Precedence) : Contained ix n (infixApplication inner entry lhs p) :=
  contained_bind (hi.expression p) fun _ => contained_pure _

theorem contained_postfixApplication (entry : IndexedEntry) (lhs : Expr) :
    Contained ix n (postfixApplication entry lhs) := by
  unfold postfixApplication
  dsimp only
  split
  · exact contained_bind (contained_of_sides (conserves_warn _) fun _ => ⟨rfl, rfl⟩) fun _ =>
      contained_pure _
  · exact contained_pure _

/-- Applying an operator stays in the group, by its routine too. -/
theorem contained_applyOperator (hx : ix.Harmless) (hi : inner.Contained ix n)
    {entry : IndexedEntry} (he : entry ∈ ix.latest) (lhs : Expr) (p : Precedence) :
    Contained ix n (applyOperator inner entry lhs p) := by
  unfold applyOperator
  split
  · exact contained_runHandler hi (hx.orderly.keepsErrors _ he _ ‹_›) _ _
  · exact contained_some (contained_postfixApplication entry lhs)
  · exact contained_runHandler hi (hx.orderly.keepsErrors _ he _ ‹_›) _ _
  · exact contained_some (contained_infixApplication hi entry lhs _)
  · exact contained_pure _

/-- The trigger of a candidate comes next. -/
def TriggerAhead (candidate : Nat × IndexedEntry) (ts : List Token) : Prop :=
  candidate.2.trigger.length = candidate.1 ∧
    Token.raws (ts.take candidate.1) = candidate.2.trigger

/-- A cut leaves a trigger where it is, since a harmless trigger has no digits. -/
theorem TriggerAhead.of_cuts {candidate : Nat × IndexedEntry}
    (hr : Token.Harmless candidate.2.trigger) {ts us : List Token} (h : TriggerAhead candidate ts)
    (hc : Token.Cuts ts us) : TriggerAhead candidate us := by
  obtain ⟨hlength, hraws⟩ := h
  refine ⟨hlength, ?_⟩
  rw [← hlength] at hraws ⊢
  exact raws_of_cuts hr.uncut hraws hc

/-- Passing a harmless trigger stays in the group. -/
theorem contained_advance_trigger {candidate : Nat × IndexedEntry}
    (hr : Token.Harmless candidate.2.trigger) :
    ContainedFrom ix n (TriggerAhead candidate) (Reading.advance candidate.1) := by
  refine (contained_advance _).mono fun ts hts => ?_
  obtain ⟨hlength, hraws⟩ := hts
  rw [← hlength] at hraws ⊢
  exact within_drop_raws hr hraws

/-- An operator that is tried behind its trigger stays in the group. -/
theorem contained_tryOperator (hx : ix.Harmless) (hi : inner.Contained ix n)
    {candidate : Nat × IndexedEntry} (he : candidate.2 ∈ ix.latest) (min : Precedence)
    (lhs : Expr) :
    ContainedFrom ix n (TriggerAhead candidate) (tryOperator inner min lhs candidate) := by
  unfold tryOperator
  split
  · split
    · exact contained_rewinding (contained_bind (contained_advance_trigger (hx.trigger _ he))
        fun _ => contained_applyOperator hx hi he lhs _)
    · exact contained_pure _
  · exact contained_pure _

/-- Juxtaposition stays in the group. -/
theorem contained_juxtapose (hi : inner.Contained ix n) (min : Precedence) (lhs : Expr) :
    Contained ix n (juxtapose ix inner min lhs) := by
  unfold juxtapose
  split
  · exact contained_pure _
  · refine contained_state_bind (fun _ => rfl) fun last => ?_
    split
    · exact contained_pure _
    · refine contained_rewinding (contained_bind (hi.expression _) fun rhs => ?_)
      split <;> exact contained_pure _

/-- Candidates one after another, each with its trigger next. -/
theorem contained_candidates (hx : ix.Harmless)
    {attempt : Nat × IndexedEntry → Reading (Option Expr)} {candidates : List (Nat × IndexedEntry)}
    (hm : ∀ c ∈ candidates, c.2 ∈ ix.latest)
    (h : ∀ c : Nat × IndexedEntry, c.2 ∈ ix.latest →
      ContainedFrom ix n (TriggerAhead c) (attempt c))
    (hreturns : ∀ c : Nat × IndexedEntry, c.2 ∈ ix.latest → Returns n (attempt c)) :
    ContainedFrom ix n (fun ts => ∀ c ∈ candidates, TriggerAhead c ts)
      (firstOf attempt candidates) := by
  have hfirst : ContainedFrom ix n (fun ts => ∀ c ∈ candidates, c.2 ∈ ix.latest ∧ TriggerAhead c ts)
      (firstOf attempt candidates) :=
    contained_firstOf (fun c ts us hts hcut => ⟨hts.1, hts.2.of_cuts (hx.trigger _ hts.1) hcut⟩)
      (fun c hc => (h c (hm c hc)).mono fun ts hts => hts.2) fun c hc => hreturns c (hm c hc)
  exact hfirst.mono fun ts hts c hc => ⟨hm c hc, hts c hc⟩

/-- Candidates of one kind that a look-up finds. -/
theorem contained_lookup (hx : ix.Harmless) (kind : Kind)
    {attempt : Nat × IndexedEntry → Reading (Option Expr)}
    (h : ∀ c : Nat × IndexedEntry, c.2 ∈ ix.latest →
      ContainedFrom ix n (TriggerAhead c) (attempt c))
    (hreturns : ∀ c : Nat × IndexedEntry, c.2 ∈ ix.latest → Returns n (attempt c)) :
    ContainedFrom ix n pre (do
      Reading.firstOf attempt (ix.lookup kind (← Reading.upcoming))) := by
  refine contained_view_bind (fun _ => rfl) fun raws => ?_
  have hm : ∀ c ∈ ix.lookup kind raws, c.2 ∈ ix.latest := fun c hc =>
    (Index.of_mem_lookup hx.orderly.arranged hc).1
  refine (contained_candidates hx hm h hreturns).mono fun ts hts c hc => ?_
  rw [← hts.2] at hc
  exact raws_of_mem_lookup hx.orderly.arranged hc

/-- A suffix stays in the group, since its trigger is passed whole. -/
theorem contained_suffix (hx : ix.Harmless) (hi : inner.Contained ix n) (min : Precedence)
    (lhs : Expr) : Contained ix n (suffix ix inner min lhs) := by
  refine contained_view_bind (fun _ => rfl) fun raws => ?_
  split
  next => exact (contained_juxtapose hi min lhs).mono fun _ _ => trivial
  next top others hc =>
    split
    · rw [← hc]
      refine (contained_candidates hx (fun c hm => mem_latest_of_operatorCandidates hx.orderly hm)
        (fun c he => contained_tryOperator hx hi he min lhs)
        (fun c he => (attempts_tryOperator hx.orderly hi.tracks he min lhs).returns)).mono
          fun ts hts c hm => ?_
      rw [← hts.2] at hm
      exact (mem_operatorCandidates hm).elim (raws_of_mem_lookup hx.orderly.arranged)
        (raws_of_mem_lookup hx.orderly.arranged)
    · exact contained_pure _

/-- Rounds of suffixes stay in the group. -/
theorem contained_suffixes (hx : ix.Harmless) (hi : inner.Contained ix n) (min : Precedence)
    (lhs : Expr) : Contained ix n (suffixes ix inner min lhs) := by
  refine contained_loop (fun e => ?_) lhs
  refine contained_bind (contained_suffix hx hi min e) fun o => ?_
  split <;> exact contained_pure _

/-! ## Numerals and texts -/

/-- Groups of digits have no brackets. -/
theorem within_digitGroups (ts : List Token) : Within ix ts (ts.drop (digitGroups ts).2) := by
  fun_induction digitGroups ts with
  | case1 => exact within_refl _
  | case2 t hk sep us hsep r ih =>
    intro rest e below h
    have hspace : Within ix (sep :: us) us :=
      @within_drop_raws ix (sep :: us) [thinSpace] (by decide) (congrArg (fun raw => [raw]) hsep)
    exact hspace.trans ih rest e below (h.number hk)
  | case3 t hk sep us hsep => exact fun rest e below h => ⟨e, Nat.le_refl e, h.number hk⟩
  | case4 t hk => exact fun rest e below h => ⟨e, Nat.le_refl e, h.number hk⟩
  | case5 t ts hk => exact within_refl _

/-- An overline closes the bracket that it opens. -/
theorem within_of_overlined? {ts : List Token} {digits : String}
    (h : overlined? ts = some digits) : Within ix ts (ts.drop 4) := by
  unfold overlined? at h
  split at h
  next line left number right us =>
    split at h
    next hc =>
      obtain ⟨hline, hleft, hnumber, hright, -⟩ := hc
      -- the digits may be any, so this is no fixed row of raw texts
      intro rest e below hin
      have hgroup : Inside ix rest (e :: below) (left :: number :: right :: us) :=
        @Inside.drop_raws ix rest _ _ hin 0 (Nat.succ_pos _) ["\\overline"]
          (congrArg (fun raw => [raw]) hline) (by decide) rfl
      have hclose := (hgroup.opened (.inl hleft)).2.number hnumber
      exact ⟨e, Nat.le_refl e, (hclose.closed (.inr hright)).2.2⟩
    next => cases h
  next => cases h

/-- A repeating part closes the brackets that it opens. -/
theorem within_of_repeatingPart? {pointed : Bool} {ts : List Token} {digits : String}
    {length : Nat} (h : repeatingPart? pointed ts = some (digits, length)) :
    Within ix ts (ts.drop length) := by
  unfold repeatingPart? at h
  split at h
  · obtain ⟨d, hd, heq⟩ := Option.map_eq_some_iff.1 h
    obtain ⟨-, rfl⟩ := Prod.mk.inj heq
    exact within_of_overlined? hd
  · split at h
    next point us =>
      split at h
      next hpoint =>
        obtain ⟨d, hd, heq⟩ := Option.map_eq_some_iff.1 h
        obtain ⟨-, rfl⟩ := Prod.mk.inj heq
        have hbehind : Within ix (point :: us) us :=
          @within_drop_raws ix (point :: us) ["."] (by decide) (congrArg (fun raw => [raw]) hpoint)
        exact hbehind.trans (within_of_overlined? hd)
      next => cases h
    next => cases h

/-- A numeral stays in the group. -/
theorem contained_numeral : Contained ix n numeral := by
  refine contained_get_bind fun p => ?_
  refine contained_bind ((contained_advance _).mono fun ts hts => ?_) fun _ => ?_
  · rw [← hts.2]
    exact within_digitGroups ts
  · refine contained_get_bind fun q => ?_
    split
    next digits length hr =>
      refine contained_bind ((contained_advance _).mono fun ts hts => ?_) fun _ =>
        contained_pure _
      rw [hts.2]
      exact within_of_repeatingPart? hr
    next => exact contained_pure _

/-- A verbatim text is read up to the brace that closes its group. -/
theorem inside_textToken {p : Parser} {e : Nat} {below : List Nat} {u : Token} {us : List Token}
    (hp : p.ahead = u :: us) (hu : u.kind = .text ∨ u.kind = .closeGroup)
    (h : Inside ix rest (e :: below) (u :: us)) :
    Inside ix rest (e :: below) (textToken p).2.ahead ∧
      ∃ t ∈ (textToken p).2.ahead.head?, t.kind = .closeGroup := by
  rw [textToken, peek_bind_apply, hp]
  by_cases hk : u.kind = .text
  · obtain ⟨hhead, hin⟩ := h.text hk
    simp only [List.head?_cons, hk, ↓reduceIte]
    show Inside ix rest (e :: below) (p.advance 1).ahead ∧
      ∃ t ∈ (p.advance 1).ahead.head?, t.kind = .closeGroup
    rw [ahead_advance_one hp]
    exact ⟨hin, rightBrace, hhead, rfl⟩
  · simp only [List.head?_cons, hk, ↓reduceIte]
    show Inside ix rest (e :: below) p.ahead ∧ ∃ t ∈ p.ahead.head?, t.kind = .closeGroup
    rw [hp]
    exact ⟨h, u, rfl, hu.resolve_left hk⟩

/-- A spelling that matched was that of the next token. -/
theorem head?_of_matchToken {raw : String} {p q : Parser} (h : matchToken raw p = (true, q)) :
    ∃ t ∈ p.ahead.head?, t.raw = raw := by
  rw [matchToken, peek_bind_apply] at h
  cases hp : p.ahead with
  | nil =>
    rw [hp] at h
    cases h
  | cons t ts =>
    refine ⟨t, rfl, Classical.byContradiction fun hne => ?_⟩
    simp only [hp, List.head?_cons, hne, ↓reduceIte] at h
    cases h

/-- A text command and its argument, if that is a verbatim text. -/
theorem contained_text : ContainedFrom ix n
    (fun ts => ∃ t ∈ ts.head?, t.kind = .command ∧ t.raw ∈ Token.textCommands) text := by
  have htracks : TracksFrom ix n (FrontClear 1) Expr.Sound text := tracks_text
  refine ⟨htracks.toPassing, fun p hp hts rest e below h => ?_⟩
  obtain ⟨t, ht, hk, hraw⟩ := hts
  obtain ⟨ts, hts⟩ := List.head?_eq_some_iff.1 ht
  rw [hts] at h
  obtain ⟨hargument, hin⟩ := h.textCommand hk hraw
  have hahead : (p.advance 1).ahead = ts := ahead_advance_one hts
  refine ⟨e, Nat.le_refl e, ?_⟩
  rw [text, bind_apply, show Reading.advance 1 p = ((), p.advance 1) from rfl, bind_apply,
    bind_apply]
  rcases matchToken_apply "\x7b" (p.advance 1) with hopen | hopen
  · -- a brace follows, so a text or the closing brace comes next
    obtain ⟨left, hl, hleft⟩ := head?_of_matchToken hopen
    obtain ⟨us, rfl⟩ := List.head?_eq_some_iff.1 (hahead ▸ hl)
    have hgroup := (hin.opened (.inl hleft)).2
    cases us with
    | nil => exact absurd hgroup not_inside_nil
    | cons u us =>
      have hbody : ((p.advance 1).advance 1).ahead = u :: us := ahead_advance_one hahead
      obtain ⟨htext, v, hv, hclosing⟩ := inside_textToken hbody (hargument hleft) hgroup
      rw [show Reading.index (p.advance 1) = ((p.advance 1).index, p.advance 1) from rfl]
      dsimp only
      rw [hopen]
      dsimp only
      rw [if_pos rfl, bind_apply, bind_apply]
      rcases inside_matchCloseGroup htext with ⟨q, hclose, hafter⟩ | ⟨-, hno⟩
      · rw [hclose]
        exact hafter
      · exact absurd hclosing (hno v hv)
  · rw [show Reading.index (p.advance 1) = ((p.advance 1).index, p.advance 1) from rfl]
    dsimp only
    rw [hopen]
    show Inside ix rest (e :: below) (p.advance 1).ahead
    rw [hahead]
    exact hin

/-! ## Delimiters, prefix operators and symbols -/

/-- What is read up to a closing delimiter stays in the group. -/
theorem contained_delimited (hi : inner.Contained ix n) {close : List String}
    (hc : Token.Harmless close) : Contained ix n (delimited inner close) := by
  refine contained_bind (contained_matchTokens hc) fun closed => ?_
  split
  · exact contained_pure _
  · refine contained_bind (hi.expression _) fun body => ?_
    refine contained_bind (contained_matchTokens hc) fun closed => ?_
    split <;> exact contained_pure _

/-- A matchfix operator stays in the group between its delimiters. -/
theorem contained_tryMatchfix (hx : ix.Harmless) (hi : inner.Contained ix n)
    {candidate : Nat × IndexedEntry} (he : candidate.2 ∈ ix.latest) :
    ContainedFrom ix n (TriggerAhead candidate) (tryMatchfix inner candidate) := by
  refine contained_rewinding ?_
  dsimp only
  split
  next => exact contained_pure _
  next close hclose =>
    refine contained_bind (contained_advance_trigger (hx.trigger _ he)) fun _ => ?_
    refine contained_bind (contained_delimited hi (hx.close _ he close hclose)) fun o => ?_
    split
    · exact contained_pure _
    · split
      · exact contained_runHandler hi (hx.orderly.keepsErrors _ he _ ‹_›) _ _
      · exact contained_pure _

theorem contained_matchfix (hx : ix.Harmless) (hi : inner.Contained ix n) :
    ContainedFrom ix n pre (matchfix ix inner) :=
  contained_lookup hx .matchfix (fun _ he => contained_tryMatchfix hx hi he)
    fun _ he => (attempts_tryMatchfix hx.orderly hi.tracks he).returns

/-- A prefix operator stays in the group behind its trigger. -/
theorem contained_tryPrefixOp (hx : ix.Harmless) (hi : inner.Contained ix n) (min : Precedence)
    {candidate : Nat × IndexedEntry} (he : candidate.2 ∈ ix.latest) :
    ContainedFrom ix n (TriggerAhead candidate) (tryPrefixOp inner min candidate) := by
  unfold tryPrefixOp
  dsimp only
  split
  · exact contained_pure _
  · refine contained_rewinding
      (contained_bind (contained_advance_trigger (hx.trigger _ he)) fun _ => ?_)
    split
    · exact contained_runHandler hi (hx.orderly.keepsErrors _ he _ ‹_›) _ _
    · exact contained_bind (hi.expression _) fun _ => contained_pure _

theorem contained_prefixOperation (hx : ix.Harmless) (hi : inner.Contained ix n)
    (min : Precedence) : ContainedFrom ix n pre (prefixOperation ix inner min) :=
  contained_lookup hx .prefixOp (fun _ he => contained_tryPrefixOp hx hi min he)
    fun _ he => (attempts_tryPrefixOp hx.orderly hi.tracks min he).returns

/-- The arguments of a function stay in the group. -/
theorem contained_functionArguments (hi : inner.Contained ix n) (head : String) :
    Contained ix n (functionArguments inner head) := by
  refine contained_bind (contained_argumentList hi) fun o => ?_
  split
  · exact contained_pure _
  · refine contained_bind (hi.expression _) fun o => ?_
    split <;> exact contained_pure _

/-- An entry for a symbol stays in the group behind its trigger. -/
theorem contained_trySymbol (hx : ix.Harmless) (hi : inner.Contained ix n)
    {candidate : Nat × IndexedEntry} (he : candidate.2 ∈ ix.latest) :
    ContainedFrom ix n (TriggerAhead candidate) (trySymbol inner candidate) := by
  refine contained_rewinding
    (contained_bind (contained_advance_trigger (hx.trigger _ he)) fun _ => ?_)
  split
  · exact contained_runHandler hi (hx.orderly.keepsErrors _ he _ ‹_›) _ _
  · split
    · exact contained_some (contained_functionArguments hi _)
    · exact contained_pure _

/-- A name that is read as written closes the brackets that it opens. -/
theorem contained_namedSymbol (hi : inner.Contained ix n) : Contained ix n (namedSymbol inner) := by
  refine contained_get_bind fun p => ?_
  dsimp only
  split
  next => exact contained_pure _
  next name length hname =>
    refine contained_bind ((contained_advance _).mono fun ts hts => ?_) fun _ => ?_
    · rw [hts.2]
      exact within_drop (Name.balanced_of_identifier? hname) (frontClear_of_identifier? hname)
    · split
      · refine contained_bind (contained_argumentList hi) fun o => ?_
        split <;> exact contained_pure _
      · exact contained_pure _

/-- A symbol stays in the group. -/
theorem contained_symbol (hx : ix.Harmless) (hi : inner.Contained ix n) :
    ContainedFrom ix n pre (symbol ix inner) := by
  refine contained_view_bind (fun _ => rfl) fun raws => ?_
  have hm : ∀ c ∈ ix.lookup .identifier raws, c.2 ∈ ix.latest := fun c hc =>
    (Index.of_mem_lookup hx.orderly.arranged hc).1
  refine contained_bind ((contained_candidates hx hm (fun _ he => contained_trySymbol hx hi he)
    fun _ he => (attempts_trySymbol hx.orderly hi.tracks he).returns).mono
      fun ts hts c hc => ?_) fun o => ?_
  · rw [← hts.2] at hc
    exact raws_of_mem_lookup hx.orderly.arranged hc
  · split
    · exact contained_pure _
    · exact contained_namedSymbol hi

/-! ## Environments -/

/-- The tokens are inside of some environment of a group, in groups that were opened after it or in
none. -/
def InCells (ix : Index) (rest : List Token) (e : Nat) (below : List Nat) (ts : List Token) :
    Prop :=
  ∃ opened c, e < c ∧ Inside ix rest (opened ++ c :: below) ts

section Cells

variable {e : Nat} {below : List Nat} {t : Token} {ts us : List Token}

/-- Staying in a group keeps tokens inside of the cells. -/
theorem InCells.within (h : InCells ix rest e below ts) (hw : Within ix ts us) :
    InCells ix rest e below us := by
  obtain ⟨opened, c, hc, hin⟩ := h
  cases opened with
  | nil =>
    obtain ⟨d, hd, hus⟩ := hw rest c below hin
    exact ⟨[], d, Nat.lt_of_lt_of_le hc hd, hus⟩
  | cons d opened =>
    obtain ⟨d', -, hus⟩ := hw rest d (opened ++ c :: below) hin
    exact ⟨d' :: opened, c, hc, hus⟩

/-- Whatever token is set aside, braces and begin commands included, it does not lead out of the
environment, unless it is an end command. -/
theorem InCells.tail (h : InCells ix rest e below (t :: ts)) (ht : t ≠ ⟨"\\end", .command⟩) :
    InCells ix rest e below ts := by
  obtain ⟨opened, c, hc, hin⟩ := h
  cases opened with
  | nil =>
    cases hin with
    | opens hin => exact ⟨[0], c, hc, hin⟩
    | closes => exact absurd hc (Nat.not_lt_zero e)
    | begins _ _ hin => exact ⟨[], c + 1, Nat.lt_succ_of_lt hc, hin⟩
    | ends => exact absurd rfl ht
    | other _ hin => exact ⟨[], c, hc, hin⟩
  | cons d opened =>
    cases hin with
    | opens hin => exact ⟨0 :: d :: opened, c, hc, hin⟩
    | closes hin => exact ⟨opened, c, hc, hin⟩
    | begins _ _ hin => exact ⟨(d + 1) :: opened, c, hc, hin⟩
    | ends => exact absurd rfl ht
    | other _ hin => exact ⟨d :: opened, c, hc, hin⟩

/-- An end command and the name behind it lead out of the environment, and not out of its group. -/
theorem InCells.ended (h : InCells ix rest e below (⟨"\\end", .command⟩ :: ts)) :
    ∃ e', e ≤ e' ∧ Inside ix rest (e' :: below) (ts.drop (environmentName ts).2) := by
  obtain ⟨opened, c, hc, hin⟩ := h
  cases opened with
  | nil =>
    obtain ⟨-, hn, hin⟩ := hin.ended rfl
    exact ⟨c - 1, by omega, hin.of_namesIfBraced (hn (by omega))⟩
  | cons d opened =>
    -- no end command stands in a group in the environment
    obtain ⟨hz, -, -⟩ := hin.ended rfl
    have := hz c (List.mem_append_right _ List.mem_cons_self)
    omega

/-- Passing anything but an end command stays inside of the cells. -/
theorem InCells.advance {p : Parser} (h : InCells ix rest e below p.ahead)
    (hp : p.ahead.head? ≠ some ⟨"\\end", .command⟩) :
    InCells ix rest e below (p.advance 1).ahead := by
  rw [show (p.advance 1).ahead = p.ahead.drop 1 from rfl]
  cases hts : p.ahead with
  | nil =>
    rw [hts] at h
    exact h
  | cons t ts =>
    rw [hts] at h hp
    exact h.tail fun ht => hp (congrArg some ht)

/-- The expression of a cell stays in the environment. Where there is none, it is the same token
that comes next. -/
theorem InCells.expression (hi : inner.Contained ix n) {p q : Parser} (hp : p.AtLevel n)
    (h : InCells ix rest e below p.ahead) {o : Option Expr}
    (hr : inner.expression .loosest p = (o, q)) :
    InCells ix rest e below q.ahead ∧ ∀ t : Token, t.kind ≠ .number → o = none →
      q.ahead.head? = some t → p.ahead.head? = some t := by
  have hin := h.within ((hi.expression .loosest).within p hp trivial)
  have hback := hi.expressionReturns .loosest p hp
  rw [hr] at hin hback
  exact ⟨hin, fun t hk ho hq => head?_before_cuts hk hq (hback ho).ahead⟩

/-- One round over the cells of an environment that is not the last one. -/
theorem inCells_tabularStep (hi : inner.Contained ix n) {t u : Tabular} {p q : Parser}
    (hp : p.AtLevel n) (hstep : tabularStep inner t p = ((u, true), q))
    (h : InCells ix rest e below p.ahead) : InCells ix rest e below q.ahead := by
  obtain ⟨o, r, hhead, hround, heq⟩ := tabularRound_apply inner t p
  rw [heq] at hstep
  -- every round but the last one passes a token only where it is no end command
  have hne : ∀ {token : Token}, o = some token → token ≠ ⟨"\\end", .command⟩ →
      p.ahead.head? ≠ some ⟨"\\end", .command⟩ := fun ho hend heq =>
    hend (Option.some.inj (ho.symm.trans (hhead.symm.trans heq)))
  cases hround with
  | ended => cases hstep
  | cell | row =>
    obtain ⟨-, rfl⟩ := Prod.mk.inj hstep
    exact h.advance (hne rfl (by decide))
  | closed => exact Bool.noConfusion (Prod.mk.inj (Prod.mk.inj hstep).1).2
  | filled hend =>
    obtain ⟨-, rfl⟩ := Prod.mk.inj hstep
    exact h.advance (hne rfl hend)
  | empty hend =>
    rw [bind_apply] at hstep
    rcases hr : inner.expression .loosest p with ⟨o, r⟩
    obtain ⟨hin, hsame⟩ := h.expression hi hp hr
    rw [hr] at hstep
    cases o with
    | some a =>
      obtain ⟨-, rfl⟩ := Prod.mk.inj hstep
      exact hin
    | none =>
      obtain ⟨-, rfl⟩ := Prod.mk.inj hstep
      exact hin.advance fun heq => hne rfl hend (hsame _ (by decide) rfl heq)

/-- The cells of an environment: whatever they hold, the end command that ends them belongs to an
environment of the same group. -/
theorem inside_of_repeats (hi : inner.Contained ix n) {t u : Tabular} {p q : Parser}
    (hr : Repeats (tabularStep inner) t p u q) (hp : p.AtLevel n)
    (h : InCells ix rest e below p.ahead) :
    ∃ e', e ≤ e' ∧ Inside ix rest (e' :: below) q.ahead := by
  induction hr with
  | last hlast =>
    obtain ⟨-, ⟨hnil, -⟩ | ⟨ts, hts, hq⟩⟩ := tabularStep_last hlast
    · -- the group ends before the input does
      obtain ⟨opened, c, -, hin⟩ := h
      rw [hnil] at hin
      cases opened with
      | nil => exact absurd hin not_inside_nil
      | cons d opened => exact absurd hin not_inside_nil
    · rw [hts] at h
      rw [hq]
      exact h.ended
  | @again t _ _ _ _ _ hround _ ih =>
    have hq := (passing_tabularStep hi.tracks t).conserves.atLevel hp
    rw [hround] at hq
    exact ih hq (inCells_tabularStep hi hp hround h)

end Cells

/-- An environment entry stays in the group that the environment was in. -/
theorem contained_tryEnvironment (hx : ix.Harmless) (hi : inner.Contained ix n) (cells : Expr)
    {entry : IndexedEntry} (he : entry ∈ ix.latest) :
    Contained ix n (tryEnvironment inner cells entry) := by
  unfold tryEnvironment
  split
  · exact contained_rewinding (contained_runHandler hi (hx.orderly.keepsErrors _ he _ ‹_›) _ _)
  · exact contained_pure _

/-- The entries for a name stay in the group. -/
theorem contained_environments (hx : ix.Harmless) (hi : inner.Contained ix n) (name : String)
    (cells : Expr) :
    Contained ix n (firstOf (tryEnvironment inner cells) (ix.environments name)) := by
  have hm : ∀ e ∈ ix.environments name, e ∈ ix.latest := fun _ he =>
    Index.environments_subset ix name he
  have hfirst : ContainedFrom ix n (fun _ => ∀ e ∈ ix.environments name, True)
      (firstOf (tryEnvironment inner cells) (ix.environments name)) :=
    contained_firstOf (fun _ _ _ _ _ => trivial)
      (fun e he => contained_tryEnvironment hx hi cells (hm e he))
      fun e he => (attempts_tryEnvironment hx.orderly hi.tracks cells (hm e he)).returns
  exact hfirst.mono fun _ _ _ _ => trivial

/-- A begin command behind which no environment is named is left where it stands. -/
theorem ahead_environment_of_not_names {p : Parser} (hn : ¬ Names ix (p.advance 1).ahead) :
    (environment ix inner p).2.ahead = p.ahead := by
  generalize hq : (p.advance 1).advance (environmentName (p.advance 1).ahead).2 = q
  have hstep : environmentStep ix inner p = (none, q) := by
    rw [environmentStep, bind_apply, bind_apply,
      show Reading.advance 1 p = ((), p.advance 1) from rfl, takeEnvironmentName_apply, hq]
    cases hname : (environmentName (p.advance 1).ahead).1 with
    | none => rfl
    | some name =>
      have hnil : ix.environments name = [] :=
        Classical.byContradiction fun hne => hn ⟨name, hname, hne⟩
      dsimp only
      rw [environmentBody, hnil]
      rfl
  have htokens : q.tokens = p.tokens := by
    rw [← hq, tokens_advance, tokens_advance]
  rw [environment_eq, rewinding_of_none hstep]
  refine (sides_eq ?_ ?_).2
  · rw [index_seek, htokens, Nat.min_eq_left p.index_le_length]
  · rw [tokens_seek, htokens]

/-- An environment that is named ends in the group that it begins in. -/
theorem inside_environment (hx : ix.Harmless) (hi : inner.Contained ix n) {p : Parser}
    (hp : p.AtLevel n) {e : Nat} {below : List Nat} (h : Inside ix rest (e :: below) p.ahead)
    (hn : Names ix (p.advance 1).ahead)
    (hin : Inside ix rest ((e + 1) :: below) (p.advance 1).ahead) :
    ∃ e', e ≤ e' ∧ Inside ix rest (e' :: below) (environment ix inner p).2.ahead := by
  obtain ⟨name, hname, hne⟩ := hn
  generalize hq : (p.advance 1).advance (environmentName (p.advance 1).ahead).2 = q
  have hql : q.AtLevel n := by
    rw [← hq]
    exact (follows_advance _ _).atLevel ((follows_advance _ _).atLevel hp)
  -- behind the name stand the cells, up to an end command in the same group
  have hcells : InCells ix rest e below q.ahead := by
    rw [← hq]
    exact ⟨[], e + 1, Nat.lt_succ_self e, hin.of_name hname⟩
  obtain ⟨d, hd, htable⟩ :=
    inside_of_repeats hi (repeats_tabular hi.tracks.moving hql) hql hcells
  have htl : (tabular inner q).2.AtLevel n :=
    (passing_loop (passing_tabularStep hi.tracks) _).conserves.atLevel hql
  obtain ⟨c, hc, hafter⟩ := (contained_environments hx hi name (tabular inner q).1.toExpr).within
    _ htl trivial _ _ _ htable
  have hstep : environmentStep ix inner p =
      firstOf (tryEnvironment inner (tabular inner q).1.toExpr) (ix.environments name)
        (tabular inner q).2 := by
    rw [environmentStep, bind_apply, bind_apply,
      show Reading.advance 1 p = ((), p.advance 1) from rfl, takeEnvironmentName_apply, hq, hname]
    dsimp only
    rw [environmentBody_of_ne_nil hne]
    rfl
  have hpassing := passing_environmentStep hx.orderly hi.tracks
  rw [← hstep] at hafter
  rw [environment_eq]
  rcases ho : environmentStep ix inner p with ⟨_ | a, r⟩
  · -- no entry is for what was read, and the whole of it is read again in its group
    obtain ⟨passed, hpass⟩ := hpassing.passes p hp
    have hfollows := hpassing.conserves p hp
    rw [ho] at hafter hpass hfollows
    rw [rewinding_of_none ho]
    exact ⟨e, Nat.le_refl e, h.seek hafter hpass hfollows⟩
  · rw [ho] at hafter
    rw [rewinding_of_some ho]
    exact ⟨c, Nat.le_trans hd hc, hafter⟩

/-- An environment ends in the group it began in, with the end command passed or the group at its
end. -/
theorem contained_environment (hx : ix.Harmless) (hi : inner.Contained ix n) :
    ContainedFrom ix n (fun ts => ∃ t us, ts = t :: us ∧ t.raw = "\\begin")
      (environment ix inner) := by
  refine ⟨(attempts_environment hx.orderly hi.tracks).toPassing, fun p hp hts rest e below h => ?_⟩
  obtain ⟨t, us, ha, hraw⟩ := hts
  have hus : (p.advance 1).ahead = us := ahead_advance_one ha
  rw [ha] at h
  -- whether it is read depends on the name alone, and so does what the run makes of it
  rcases h.begun hraw with ⟨hn, hin⟩ | hn
  · rw [← ha] at h
    rw [← hus] at hn hin
    exact inside_environment hx hi hp h hn hin
  · rw [← hus] at hn
    rw [ahead_environment_of_not_names hn, ha]
    exact ⟨e, Nat.le_refl e, h⟩

/-- What begins with no number stays in the group, with its first token passed by what it begins. -/
theorem contained_primaryFrom (hx : ix.Harmless) (hi : inner.Contained ix n) (min : Precedence)
    {t : Token} (hk : t.kind ≠ .number) :
    ContainedFrom ix n (fun ts => ts.head? = some t) (primaryFrom ix inner min t) := by
  -- each way to begin is contained from the tokens that lead to it
  apply primaryFrom_cases
  case group =>
    exact fun hopen => (contained_some (contained_braceGroup hi)).mono fun ts hts => ⟨t, hts, hopen⟩
  case closing => exact fun _ => contained_pure _
  case text =>
    exact fun htext => (contained_some contained_text).mono fun ts hts => ⟨t, hts, htext⟩
  case others =>
    refine (contained_firstOf (fun _ ts us hts hcuts => head?_of_cuts hk hts hcuts)
      (fun r hr => ?_) fun r hr =>
        (attempts_alternative hx.orderly hi.tracks min t hr).returns).mono fun ts hts _ _ => hts
    apply alternative_cases hr
    case fence => exact contained_matchfix hx hi
    case environment =>
      refine fun hbegin => (contained_environment hx hi).mono fun ts hts => ?_
      obtain ⟨us, rfl⟩ := List.head?_eq_some_iff.1 hts
      exact ⟨t, us, rfl, hbegin⟩
    case skipped => exact contained_pure _
    case prefixOp => exact contained_prefixOperation hx hi min
    case symbol => exact contained_symbol hx hi

/-- An operand without suffixes stays in the group. -/
theorem contained_primary (hx : ix.Harmless) (hi : inner.Contained ix n) (min : Precedence) :
    Contained ix n (Parser.primary ix inner min) := by
  refine contained_peek_bind fun o => ?_
  cases o with
  | none => exact contained_pure _
  | some t =>
    dsimp only
    split
    next => exact (contained_some contained_numeral).mono fun _ _ => trivial
    next hk =>
      exact (contained_primaryFrom hx hi min hk).mono fun ts hts => hts.2

end Parser

namespace Nested

open MathMarkup.Parser MathMarkup.Reading

variable {ix : Index} {inner : Nested} {n : Nat}

/-! ## Every level -/

/-- An operand with its suffixes stays in the group. -/
theorem contained_operation (hx : ix.Harmless) (hi : inner.Contained ix n) (min : Precedence) :
    Reading.Contained ix n (operation ix inner min) := by
  refine contained_bind (hi.primary min) fun o => ?_
  split
  · exact contained_some (contained_suffixes hx hi min _)
  · exact contained_pure _

/-- An operand that is not found ends where it began. -/
theorem returns_operation (hi : inner.Contained ix n) (min : Precedence) :
    Returns n (operation ix inner min) := by
  intro p hp hnone
  have hback := hi.primaryReturns min p hp
  rw [operation, bind_apply] at hnone ⊢
  rcases ha : inner.primary min p with ⟨_ | e, q⟩
  · rw [ha] at hback
    exact hback rfl
  · rw [ha] at hnone
    cases hnone

/-- Going a level deeper changes nothing about the tokens. -/
theorem contained_deeper {step : Reading (Option Expr)} (hp : Passing (n + 1) (deeper step))
    (h : Reading.Contained ix n step) : Reading.Contained ix (n + 1) (deeper step) := by
  refine ⟨hp, fun p hp _ => ?_⟩
  rw [deeper_apply]
  split
  · exact within_refl _
  · split
    · exact within_refl _
    · exact h.within p.enter hp.enter trivial

/-- One level deeper, what is not found ends where it began. -/
theorem returns_deeper {step : Reading (Option Expr)} (h : Returns n step) :
    Returns (n + 1) (deeper step) := by
  intro p hp hnone
  rw [deeper_apply] at hnone ⊢
  split at hnone
  · rw [if_pos ‹_›]
    exact passes_of_sides rfl rfl
  · rw [if_neg ‹_›]
    split at hnone
    · rw [if_pos ‹_›]
      exact passes_of_sides rfl rfl
    · rw [if_neg ‹_›]
      obtain ⟨hbehind, hahead⟩ := h p.enter hp.enter hnone
      exact ⟨hbehind, hahead⟩

/-- The readers at every level stay in the groups that they begin in. -/
theorem contained_atDepth (hx : ix.Harmless) (n : Nat) : (atDepth ix n).Contained ix n := by
  have htracks := tracks_atDepth hx.orderly
  induction n with
  | zero =>
    -- too deep to read anything
    have hgive : Reading.Contained ix 0 giveUp :=
      contained_of_sides (((htracks 0).expression .loosest).conserves) fun _ => ⟨rfl, rfl⟩
    have hback : Returns 0 giveUp := fun _ _ _ => passes_of_sides rfl rfl
    exact ⟨htracks 0, fun _ => hgive, fun _ => hgive, fun _ => hback, fun _ => hback⟩
  | succ n ih =>
    exact
      { tracks := htracks (n + 1)
        expression := fun min =>
          contained_deeper ((htracks (n + 1)).expression min).toPassing
            (contained_operation hx ih min)
        primary := fun min =>
          contained_deeper ((htracks (n + 1)).primary min).toPassing (contained_primary hx ih min)
        expressionReturns := fun min => returns_deeper (returns_operation ih min)
        primaryReturns := fun min =>
          returns_deeper (attempts_primary hx.orderly ih.tracks min).returns }

end Nested
end MathMarkup
