import MathMarkup.Proofs.Conservation

/-!
# What a reading makes of the tokens ahead

`Reading.Reads n r ts a rest` says that a reading at a level of nesting, before the tokens `ts` and
then `rest`, gives `a` and consumes `ts`, or else finds that the input nests too deeply. The second
outcome is sticky, so the rules below compose readings as if there was only the first.

Operators make it necessary to say what comes after an expression. `Parser.Ends t rest` says that an
expression whose operators bind at least as tightly as `t` goes no further before `rest`.
`Parser.Opens m e ts t` says that an expression at precedence `m` that begins with `ts` has `e` as
its left part: whatever the operators after `ts` make of `e` is what the whole reading gives, as
long as nothing goes on inside of `e`, whose last operand is held to the precedence `t`. One rule
for each form of expression then builds up what a whole rendering is read as.
-/

namespace MathMarkup
namespace Reading

open MathMarkup.Parser (AtLevel)

variable {α β : Type} {n : Nat}

/-- A reading before some tokens gives a value and consumes them, or finds that the input nests too
deeply. -/
structure Reads (n : Nat) (r : Reading α) (ts : List Token) (a : α) (rest : List Token) : Prop where
  conserves : Conserves n r
  outcome : ∀ p : Parser, p.AtLevel n → p.ahead = ts ++ rest → (r p).2.tooDeep = true ∨
    ((r p).1 = a ∧ (r p).2.behind = ts.reverse ++ p.behind ∧ (r p).2.ahead = rest)

theorem reads_pure (a : α) (rest : List Token) : Reads n (pure a : Reading α) [] a rest :=
  ⟨conserves_pure a, fun _ _ h => Or.inr ⟨rfl, rfl, h⟩⟩

/-- Before these tokens the reading does what another one does. -/
theorem reads_of_eq {r r' : Reading α} {ts rest : List Token} {a : α} (hc : Conserves n r)
    (he : ∀ p : Parser, p.ahead = ts ++ rest → r p = r' p) (h : Reads n r' ts a rest) :
    Reads n r ts a rest := by
  refine ⟨hc, fun p hp ha => ?_⟩
  rw [he p ha]
  exact h.outcome p hp ha

/-- One reading after another. What the second one reads hangs on what the first one gives, but
that it keeps the mark for too deep nesting does not. -/
theorem reads_bind {r : Reading α} {f : α → Reading β} {ts us rest : List Token} {a : α} {b : β}
    (hr : Reads n r ts a (us ++ rest)) (hc : ∀ x, Conserves n (f x))
    (hf : Reads n (f a) us b rest) : Reads n (r >>= f) (ts ++ us) b rest := by
  refine ⟨conserves_bind hr.conserves hc, fun p hp ha => ?_⟩
  rw [bind_apply]
  have hp' := hr.conserves.atLevel hp
  rcases hr.outcome p hp (by rw [ha, List.append_assoc]) with hd | ⟨hv, hb, hrest⟩
  · exact Or.inl ((hc _ _ hp').sticky hd)
  · rw [hv]
    rcases hf.outcome _ hp' hrest with hd | ⟨hv', hb', hrest'⟩
    · exact Or.inl hd
    · exact Or.inr ⟨hv', by rw [hb', hb, List.reverse_append, List.append_assoc], hrest'⟩

/-- What comes after consumes nothing. -/
theorem reads_bind_right {r : Reading α} {f : α → Reading β} {ts rest : List Token} {a : α}
    {b : β} (hr : Reads n r ts a rest) (hc : ∀ x, Conserves n (f x))
    (hf : Reads n (f a) [] b rest) : Reads n (r >>= f) ts b rest := by
  have h := reads_bind (by rw [List.nil_append]; exact hr) hc hf
  rw [List.append_nil] at h
  exact h

/-- What comes before consumes nothing. -/
theorem reads_bind_left {r : Reading α} {f : α → Reading β} {ts rest : List Token} {a : α}
    {b : β} (hr : Reads n r [] a (ts ++ rest)) (hc : ∀ x, Conserves n (f x))
    (hf : Reads n (f a) ts b rest) : Reads n (r >>= f) ts b rest :=
  reads_bind hr hc hf

/-- A look at the state before a reading. -/
theorem reads_state_bind {r : Reading α} {f : α → Reading β} {ts rest : List Token} {b : β}
    {view : List Token → α} (hr : ∀ p, r p = (view p.ahead, p)) (hc : ∀ x, Conserves n (f x))
    (hf : Reads n (f (view (ts ++ rest))) ts b rest) : Reads n (r >>= f) ts b rest := by
  refine ⟨conserves_bind (conserves_of_state fun p => by rw [hr]) hc, fun p hp ha => ?_⟩
  rw [bind_apply, hr, ha]
  exact hf.outcome p hp ha

theorem reads_get_bind {f : Parser → Reading α} {ts rest : List Token} {a : α}
    (hc : Conserves n ((get : Reading Parser) >>= f))
    (h : ∀ p : Parser, p.ahead = ts ++ rest → Reads n (f p) ts a rest) :
    Reads n ((get : Reading Parser) >>= f) ts a rest :=
  ⟨hc, fun p hp ha => (h p ha).outcome p hp ha⟩

theorem reads_peek_bind {f : Option Token → Reading α} {ts rest : List Token} {a : α}
    (hc : Conserves n (peek >>= f)) (h : Reads n (f (ts ++ rest).head?) ts a rest) :
    Reads n (peek >>= f) ts a rest := by
  refine reads_of_eq hc (fun p ha => ?_) h
  rw [peek_bind_apply, ha]

theorem reads_upcoming_bind {f : List String → Reading α} {ts rest : List Token} {a : α}
    (hc : Conserves n (upcoming >>= f)) (h : Reads n (f (Token.raws (ts ++ rest))) ts a rest) :
    Reads n (upcoming >>= f) ts a rest := by
  refine reads_of_eq hc (fun p ha => ?_) h
  show f (Token.raws p.ahead) p = _
  rw [ha]

theorem reads_index_bind {f : Nat → Reading α} {ts rest : List Token} {a : α}
    (h : ∀ i, Reads n (f i) ts a rest) : Reads n (index >>= f) ts a rest :=
  ⟨conserves_bind conserves_index fun i => (h i).conserves,
    fun p hp ha => (h p.index).outcome p hp ha⟩

theorem reads_advance (ts rest : List Token) : Reads n (advance ts.length) ts () rest := by
  refine ⟨conserves_advance _, fun p _ ha => Or.inr ⟨rfl, ?_, ?_⟩⟩
  · show (p.ahead.take ts.length).reverse ++ p.behind = _
    rw [ha, List.take_left]
  · show p.ahead.drop ts.length = _
    rw [ha, List.drop_left]

theorem reads_advance_one (t : Token) (rest : List Token) : Reads n (advance 1) [t] () rest :=
  reads_advance [t] rest

/-- A step that reads something needs no rewinding. -/
theorem reads_rewinding {step : Reading (Option α)} {ts rest : List Token} {a : α}
    (h : Reads n step ts (some a) rest) : Reads n (rewinding step) ts (some a) rest := by
  refine ⟨conserves_rewinding h.conserves, fun p hp ha => ?_⟩
  have hf := h.conserves p hp
  rcases hs : step p with ⟨o, q⟩
  have ho := h.outcome p hp ha
  rw [hs] at ho hf
  unfold rewinding
  rw [bind_apply, bind_apply, show (index p).2 = p from rfl, hs]
  cases o with
  | some b => exact ho
  | none =>
    rcases ho with hd | ⟨hv, -⟩
    · exact Or.inl ((conserves_seek p.index q (hf.atLevel hp)).sticky hd)
    · exact absurd hv nofun

/-- A step that consumes nothing and declines. -/
theorem reads_rewinding_none {step : Reading (Option α)} {rest : List Token}
    (h : Reads n step [] none rest) : Reads n (rewinding step) [] none rest := by
  refine ⟨conserves_rewinding h.conserves, fun p hp ha => ?_⟩
  have hf := h.conserves p hp
  rcases hs : step p with ⟨o, q⟩
  have ho := h.outcome p hp ha
  rw [hs] at ho hf
  unfold rewinding
  rw [bind_apply, bind_apply, show (index p).2 = p from rfl, hs]
  have hseek := conserves_seek p.index q (hf.atLevel hp)
  cases o with
  | some b =>
    rcases ho with hd | ⟨hv, -⟩
    · exact Or.inl hd
    · exact absurd hv nofun
  | none =>
    rcases ho with hd | ⟨-, hb, hrest⟩
    · exact Or.inl (hseek.sticky hd)
    · -- the cursor did not move, so going back to where it was does nothing
      right
      have hb' : q.behind = p.behind := by rw [hb]; rfl
      have hi : q.index = p.index := by rw [Parser.index, Parser.index, hb']
      have hseek : q.seek p.index = q := by
        unfold Parser.seek
        rw [hi, if_pos (Nat.le_refl _), Nat.sub_self]
        rfl
      show none = none ∧ (q.seek p.index).behind = _ ∧ (q.seek p.index).ahead = _
      rw [hseek]
      exact ⟨rfl, hb', hrest⟩

/-- The first alternative reads something. -/
theorem reads_firstOf_head {alternative : α → Reading (Option β)} {a : α} {as : List α}
    {ts rest : List Token} {b : β} (hc : ∀ x ∈ as, Conserves n (alternative x))
    (h : Reads n (alternative a) ts (some b) rest) :
    Reads n (firstOf alternative (a :: as)) ts (some b) rest := by
  refine reads_bind_right h (fun o => ?_) (reads_pure (some b) rest)
  cases o with
  | some b => exact conserves_pure _
  | none => exact conserves_firstOf hc

/-- The first alternative declines, so the others are tried. -/
theorem reads_firstOf_tail {alternative : α → Reading (Option β)} {a : α} {as : List α}
    {ts rest : List Token} {o : Option β} (hn : Reads n (alternative a) [] none (ts ++ rest))
    (h : Reads n (firstOf alternative as) ts o rest) :
    Reads n (firstOf alternative (a :: as)) ts o rest := by
  refine reads_bind_left hn (fun x => ?_) h
  cases x with
  | some b => exact conserves_pure _
  | none => exact h.conserves

theorem reads_firstOf_nil {alternative : α → Reading (Option β)} (rest : List Token) :
    Reads n (firstOf alternative []) [] none rest :=
  reads_pure none rest

/-- A round that says it was the last. -/
theorem reads_loop_last {round : α → Reading (α × Bool)} {a b : α} {ts rest : List Token}
    (hc : ∀ x, Conserves n (round x)) (h : Reads n (round a) ts (b, false) rest) :
    Reads n (loop round a) ts b rest := by
  refine ⟨conserves_loop hc a, fun p hp ha => ?_⟩
  have ho := h.outcome p hp ha
  have hf := h.conserves p hp
  rw [loop]
  rcases hr : round a p with ⟨⟨b', again⟩, q⟩
  rw [hr] at ho hf
  cases again with
  | false =>
    rcases ho with hd | ⟨hv, hb, hrest⟩
    · exact Or.inl hd
    · exact Or.inr ⟨(Prod.mk.inj hv).1, hb, hrest⟩
  | true =>
    rcases ho with hd | ⟨hv, -⟩
    · dsimp only
      split
      · exact Or.inl ((conserves_loop hc b' q (hf.atLevel hp)).sticky hd)
      · exact Or.inl hd
    · exact absurd (Prod.mk.inj hv).2 Bool.noConfusion

/-- A round that consumes something, and then the rounds after it. -/
theorem reads_loop_again {round : α → Reading (α × Bool)} {a b c : α} {ts us rest : List Token}
    (hc : ∀ x, Conserves n (round x)) (hne : ts ≠ [])
    (h : Reads n (round a) ts (b, true) (us ++ rest)) (hl : Reads n (loop round b) us c rest) :
    Reads n (loop round a) (ts ++ us) c rest := by
  refine ⟨conserves_loop hc a, fun p hp ha => ?_⟩
  have ho := h.outcome p hp (by rw [ha, List.append_assoc])
  have hf := h.conserves p hp
  rw [loop]
  rcases hr : round a p with ⟨⟨b', again⟩, q⟩
  rw [hr] at ho hf
  cases again with
  | false =>
    rcases ho with hd | ⟨hv, -⟩
    · exact Or.inl hd
    · exact absurd (Prod.mk.inj hv).2 Bool.noConfusion
  | true =>
    dsimp only at ho ⊢
    rcases ho with hd | ⟨hv, hb, hrest⟩
    · split
      · exact Or.inl ((conserves_loop hc b' q (hf.atLevel hp)).sticky hd)
      · exact Or.inl hd
    · -- the loop only goes on after a round that moved, and this one did
      have hlt : p.index < q.index := by
        have := List.length_pos_iff.2 hne
        rw [Parser.index, Parser.index, hb, List.length_append, List.length_reverse]
        omega
      rw [if_pos (hf.slack_lt hlt), (Prod.mk.inj hv).1]
      rcases hl.outcome q (hf.atLevel hp) hrest with hd | ⟨hv', hb', hrest'⟩
      · exact Or.inl hd
      · exact Or.inr ⟨hv', by rw [hb', hb, List.reverse_append, List.append_assoc], hrest'⟩

end Reading
end MathMarkup
