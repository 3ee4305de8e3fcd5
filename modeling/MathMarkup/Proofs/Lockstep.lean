import MathMarkup.Proofs.Conservation
import MathMarkup.Proofs.Renaming
import MathMarkup.Proofs.SourceTexts

/-!
# Two parses in step

Two parses of one lexicon whose buffers differ in free words only (`Parser.Renamed`) go side by
side: every reading ends in states that differ in those words only, with results that differ only in
the texts that they quote (`Reading.Parallel`). That needs a lexicon that cannot tell the words
apart (`Index.Indifferent`): its look-ups give candidates that do the same, and its custom routines
treat the words alike.

The two words need not be as long, and `Reading.loop` stops by the weight of the buffer. But a step
changes neither of the two weights, so both loops go on as long as the cursor moves, and that is the
same in both (`Renamed.slack_lt_iff`).
-/

namespace MathMarkup

open Token Expr

/-! ## The states -/

namespace Parser

/-- The second state is the first one, except that the command `c` is in the place of the command
`a` in some tokens. The buffers have some weights. -/
structure Renamed (a c : String) (w v : Nat) (p q : Parser) : Prop where
  behind : AllRenamed a c p.behind q.behind
  ahead : AllRenamed a c p.ahead q.ahead
  warnings : p.warnings = q.warnings
  depth : p.depth = q.depth
  deepest : p.deepest = q.deepest
  tooDeep : p.tooDeep = q.tooDeep
  weight : tokensWeight p.tokens = w
  weight' : tokensWeight q.tokens = v

namespace Renamed

variable {a c : String} {w v : Nat} {p q p' q' : Parser}

/-- The cursors stand at the same place. -/
theorem index_eq (h : Renamed a c w v p q) : p.index = q.index :=
  h.behind.length_eq

/-- The whole buffers differ in the two words only. -/
theorem tokens (h : Renamed a c w v p q) : AllRenamed a c p.tokens q.tokens :=
  List.rel_append (List.rel_reverse h.behind) h.ahead

/-- Moving on keeps the states in step. -/
theorem advance (h : Renamed a c w v p q) (n : Nat) :
    Renamed a c w v (p.advance n) (q.advance n) where
  behind := List.rel_append (List.rel_reverse (List.forall₂_take n h.ahead)) h.behind
  ahead := List.forall₂_drop n h.ahead
  warnings := h.warnings
  depth := h.depth
  deepest := h.deepest
  tooDeep := h.tooDeep
  weight := by rw [tokens_advance, h.weight]
  weight' := by rw [tokens_advance, h.weight']

/-- Going back keeps the states in step. -/
theorem retreat (h : Renamed a c w v p q) (n : Nat) :
    Renamed a c w v (p.retreat n) (q.retreat n) where
  behind := List.forall₂_drop n h.behind
  ahead := List.rel_append (List.rel_reverse (List.forall₂_take n h.behind)) h.ahead
  warnings := h.warnings
  depth := h.depth
  deepest := h.deepest
  tooDeep := h.tooDeep
  weight := by rw [tokens_retreat, h.weight]
  weight' := by rw [tokens_retreat, h.weight']

/-- Setting the cursors to one place keeps the states in step. -/
theorem seek (h : Renamed a c w v p q) (i : Nat) : Renamed a c w v (p.seek i) (q.seek i) := by
  unfold Parser.seek
  rw [← h.index_eq]
  split
  · exact h.retreat _
  · exact h.advance _

/-- Going to the ends keeps the states in step. -/
theorem seekEnd (h : Renamed a c w v p q) : Renamed a c w v p.seekEnd q.seekEnd := by
  unfold Parser.seekEnd
  rw [← h.ahead.length_eq]
  exact h.advance _

/-- Whether a step lowers the slack does not depend on the weights. -/
theorem slack_lt_iff (h : Renamed a c w v p q) (h' : Renamed a c w v p' q') :
    p'.slack < p.slack ↔ q'.slack < q.slack := by
  have hp := p'.index_le_weight
  have hq := q'.index_le_weight
  have hi := h.index_eq
  have hi' := h'.index_eq
  unfold slack
  rw [h.weight, h.weight', h'.weight, h'.weight'] at *
  omega

end Renamed
end Parser

/-! ## The readings -/

namespace Reading

open MathMarkup.Parser (Renamed)

variable {a c : String} {α β γ δ : Type} {R : α → β → Prop} {S : γ → δ → Prop}

/-- From states that differ in the two words only, the readings end in such states, with results
that are related. -/
def Parallel (a c : String) (R : α → β → Prop) (r : Reading α) (s : Reading β) : Prop :=
  ∀ w v p q, Renamed a c w v p q → R (r p).1 (s q).1 ∧ Renamed a c w v (r p).2 (s q).2

/-- Related values without reading. -/
theorem parallel_pure {x : α} {y : β} (h : R x y) : Parallel a c R (pure x) (pure y) :=
  fun _ _ _ _ hpq => ⟨h, hpq⟩

/-- Readings in a row go side by side if the second ones do for related values. -/
theorem parallel_bind {r : Reading α} {s : Reading β} {f : α → Reading γ} {g : β → Reading δ}
    (hr : Parallel a c R r s) (hf : ∀ x y, R x y → Parallel a c S (f x) (g y)) :
    Parallel a c S (r >>= f) (s >>= g) := by
  intro w v p q hpq
  obtain ⟨hxy, hpq'⟩ := hr w v p q hpq
  exact hf _ _ hxy w v _ _ hpq'

/-- Where the results are the same, what comes after needs to be related for them only. -/
theorem parallel_bind_eq {r s : Reading α} {f : α → Reading γ} {g : α → Reading δ}
    (hr : Parallel a c Eq r s) (hf : ∀ x, Parallel a c S (f x) (g x)) :
    Parallel a c S (r >>= f) (s >>= g) :=
  parallel_bind hr fun x y hxy => by
    subst hxy
    exact hf x

/-- What is made of two states in step goes side by side. -/
theorem parallel_get_bind {f g : Parser → Reading γ} {S : γ → γ → Prop}
    (hf : ∀ w v p q, Renamed a c w v p q → Parallel a c S (f p) (g q)) :
    Parallel a c S (get >>= f) (get >>= g) :=
  fun w v p q hpq => hf w v p q hpq w v p q hpq

/-- Changes of the states that keep them in step. -/
theorem parallel_modify {f g : Parser → Parser}
    (h : ∀ w v p q, Renamed a c w v p q → Renamed a c w v (f p) (g q)) :
    Parallel a c Eq (modify f : Reading Unit) (modify g) :=
  fun w v p q hpq => ⟨rfl, h w v p q hpq⟩

theorem parallel_index : Parallel a c Eq index index :=
  fun _ _ _ _ hpq => ⟨hpq.index_eq, hpq⟩

/-- The next tokens are the same but for the two words. -/
theorem parallel_peek : Parallel a c (Option.Rel (Token.Renamed a c)) peek peek :=
  fun _ _ _ _ hpq => ⟨head?_renamed hpq.ahead, hpq⟩

theorem parallel_atEnd : Parallel a c Eq atEnd atEnd :=
  fun _ _ _ _ hpq => ⟨isEmpty_renamed hpq.ahead, hpq⟩

/-- The spellings ahead are those of tokens that are the same but for the two words. -/
theorem parallel_upcoming :
    Parallel a c (fun x y => ∃ ts us, AllRenamed a c ts us ∧ x = Token.raws ts ∧ y = Token.raws us)
      upcoming upcoming :=
  fun _ _ _ _ hpq => ⟨⟨_, _, hpq.ahead, rfl, rfl⟩, hpq⟩

theorem parallel_seek (i : Nat) : Parallel a c Eq (seek i) (seek i) :=
  parallel_modify fun _ _ _ _ hpq => hpq.seek i

theorem parallel_advance (n : Nat) : Parallel a c Eq (advance n) (advance n) :=
  parallel_modify fun _ _ _ _ hpq => hpq.advance n

theorem parallel_seekEnd :
    Parallel a c Eq (modify Parser.seekEnd : Reading Unit) (modify Parser.seekEnd) :=
  parallel_modify fun _ _ _ _ hpq => hpq.seekEnd

theorem parallel_warn (warning : Warning) : Parallel a c Eq (warn warning) (warn warning) :=
  parallel_modify fun _ _ _ _ hpq => { hpq with warnings := by rw [hpq.warnings] }

/-- Spellings that hold neither word match in both buffers or in none. -/
theorem parallel_matchTokens {raws : List String} (ha : a ∉ raws) (hc : c ∉ raws) :
    Parallel a c Eq (matchTokens raws) (matchTokens raws) := by
  refine parallel_get_bind fun _ _ p q hpq => ?_
  have hiff := raws_renamed_iff (List.forall₂_take raws.length hpq.ahead) ha hc
  by_cases h : Token.raws (p.ahead.take raws.length) = raws
  · rw [if_pos h, if_pos (hiff.1 h)]
    exact parallel_bind_eq (parallel_advance _) fun _ => parallel_pure rfl
  · rw [if_neg h, if_neg fun h' => h (hiff.2 h')]
    exact parallel_pure rfl

/-- A spelling that begins like no free word matches in both buffers or in none. -/
theorem parallel_matchToken (ha : FreeWord a) (hc : FreeWord c) {raw : String}
    (hraw : raw.toList[1]?.all (!·.isAlpha) = true) :
    Parallel a c Eq (matchToken raw) (matchToken raw) := by
  refine parallel_bind parallel_peek fun o o' h => ?_
  cases h with
  | none => exact parallel_pure rfl
  | @some t u htu =>
    have hiff := htu.mark_iff ha hc hraw
    dsimp only
    by_cases h : t.raw = raw
    · rw [if_pos h, if_pos (hiff.1 h)]
      exact parallel_bind_eq (parallel_advance 1) fun _ => parallel_pure rfl
    · rw [if_neg h, if_neg fun h' => h (hiff.2 h')]
      exact parallel_pure rfl

/-- The command that ends a group is no free word. -/
theorem parallel_matchCloseGroup : Parallel a c Eq matchCloseGroup matchCloseGroup := by
  refine parallel_bind parallel_peek fun o o' h => ?_
  cases h with
  | none => exact parallel_pure rfl
  | some htu =>
    dsimp only
    rw [htu.kind_eq]
    split
    · exact parallel_bind_eq (parallel_advance 1) fun _ => parallel_pure rfl
    · exact parallel_pure rfl

/-- Error nodes quote different markup, but both quote some or neither does. -/
theorem parallel_error (ha : FreeWord a) (hc : FreeWord c) (code : ErrorCode)
    {arg arg' : Option String} (harg : arg.isSome = arg'.isSome) (start : Nat) :
    Parallel a c Alike (error code arg start) (error code arg' start) := by
  intro w v p q hpq
  refine ⟨alike_error code harg (Parser.isEmpty_spell_renamed ha hc ?_), hpq⟩
  show AllRenamed a c (p.behind.take (p.index - start)).reverse
    (q.behind.take (q.index - start)).reverse
  rw [hpq.index_eq]
  exact List.rel_reverse (List.forall₂_take _ hpq.behind)

/-- Readings that are taken back fail together, and then both go back to one place. -/
theorem parallel_rewinding {step : Reading (Option α)} {step' : Reading (Option β)}
    (h : Parallel a c (Option.Rel R) step step') :
    Parallel a c (Option.Rel R) (rewinding step) (rewinding step') := by
  refine parallel_bind_eq parallel_index fun start => parallel_bind h fun o o' ho => ?_
  cases ho with
  | some hxy => exact parallel_pure (.some hxy)
  | none => exact parallel_bind_eq (parallel_seek start) fun _ => parallel_pure .none

/-- The same alternatives are tried. -/
theorem parallel_firstOf {C : α → β → Prop} {alternative : α → Reading (Option γ)}
    {alternative' : β → Reading (Option δ)} {as : List α} {bs : List β}
    (hs : List.Forall₂ C as bs)
    (h : ∀ x y, C x y → Parallel a c (Option.Rel S) (alternative x) (alternative' y)) :
    Parallel a c (Option.Rel S) (firstOf alternative as) (firstOf alternative' bs) := by
  induction hs with
  | nil => exact parallel_pure .none
  | cons hxy _ ih =>
    refine parallel_bind (h _ _ hxy) fun o o' ho => ?_
    cases ho with
    | some hz => exact parallel_pure (.some hz)
    | none => exact ih

/-- What the other loop's round gives. -/
theorem again_eq {r : Reading (α × Bool)} {s : Reading (β × Bool)} {w v : Nat} {p p' q : Parser}
    {x : α} {again : Bool} (h : Parallel a c (fun x y => R x.1 y.1 ∧ x.2 = y.2) r s)
    (hpq : Renamed a c w v p q) (hr : r p = ((x, again), p')) :
    ∃ y q', s q = ((y, again), q') ∧ R x y ∧ Renamed a c w v p' q' := by
  obtain ⟨⟨hxy, hagain⟩, hpq'⟩ := h w v p q hpq
  rw [hr] at hxy hagain hpq'
  exact ⟨(s q).1.1, (s q).2, Prod.ext (Prod.ext rfl hagain.symm) rfl, hxy, hpq'⟩

/-- Both loops take the same rounds. The induction is on the slack of the first one. -/
theorem parallel_loop {round : α → Reading (α × Bool)} {round' : β → Reading (β × Bool)}
    (h : ∀ x y, R x y →
      Parallel a c (fun r s => R r.1 s.1 ∧ r.2 = s.2) (round x) (round' y))
    {x : α} {y : β} (hxy : R x y) : Parallel a c R (loop round x) (loop round' y) := by
  intro w v p q hpq
  fun_induction loop round x p generalizing y q with
  | case1 x p x' p' heq =>
    obtain ⟨y', q', heq', hr, hpq'⟩ := again_eq (h x y hxy) hpq heq
    rw [loop, heq']
    exact ⟨hr, hpq'⟩
  | case2 x p x' p' heq hlt ih =>
    obtain ⟨y', q', heq', hr, hpq'⟩ := again_eq (h x y hxy) hpq heq
    -- the first loop goes on, so the slack got smaller, and the other one sees that as well
    have hloop : loop round' y q = loop round' y' q' := by
      rw [loop, heq']
      exact if_pos ((hpq.slack_lt_iff hpq').1 hlt)
    rw [hloop]
    exact ih hr q' hpq'
  | case3 x p x' p' heq hlt =>
    obtain ⟨y', q', heq', hr, hpq'⟩ := again_eq (h x y hxy) hpq heq
    have hloop : loop round' y q = (y', q') := by
      rw [loop, heq']
      exact if_neg fun h => hlt ((hpq.slack_lt_iff hpq').2 h)
    rw [hloop]
    exact ⟨hr, hpq'⟩

end Reading

/-- The readers inside go side by side. -/
structure Nested.Parallel (a c : String) (inner : Nested) : Prop where
  expression : ∀ min, Reading.Parallel a c AlikeIfAny (inner.expression min) (inner.expression min)
  primary : ∀ min, Reading.Parallel a c AlikeIfAny (inner.primary min) (inner.primary min)

/-- The routine reads the same whichever of the two words stands in the tokens, and it does not look
into the texts that expressions quote. -/
def ParseHandler.TreatsAlike (a c : String) (handler : ParseHandler) : Prop :=
  ∀ inner : Nested, inner.Parallel a c → ∀ lhs lhs' p, AlikeIfAny lhs lhs' →
    Reading.Parallel a c AlikeIfAny (Parser.runHandler inner handler lhs p)
      (Parser.runHandler inner handler lhs' p)

/-- Candidates of a look-up that do the same. -/
structure IndexedEntry.Twins (a c : String) (x y : Nat × IndexedEntry) : Prop where
  length : x.1 = y.1
  role : x.2.role = y.2.role
  head : x.2.head = y.2.head
  parse : x.2.parse = y.2.parse
  routine : ∀ handler ∈ x.2.parse, ParseHandler.TreatsAlike a c handler
  close : ∀ close ∈ x.2.role.close?, a ∉ close ∧ c ∉ close

/-- A lexicon that cannot tell the two words apart. -/
structure Index.Indifferent (a c : String) (ix : Index) : Prop where
  lookup : ∀ kind {ts us}, AllRenamed a c ts us → List.Forall₂ (IndexedEntry.Twins a c)
    (ix.lookup kind (Token.raws ts)) (ix.lookup kind (Token.raws us))
  closes : ∀ {ts us}, AllRenamed a c ts us →
    ix.matchClose? (Token.raws ts) = ix.matchClose? (Token.raws us)
  environments : ∀ {name name'}, RenamedText a c name name' →
    ix.environments name = ix.environments name'
  routine : ∀ {name e}, e ∈ ix.environments name → ∀ handler ∈ e.parse,
    ParseHandler.TreatsAlike a c handler

namespace Parser

open MathMarkup.Reading

variable {a c : String} {ix : Index} {inner : Nested}

/-! ## Groups and arguments -/

theorem parallel_some {r s : Reading Expr} (h : Parallel a c Alike r s) :
    Parallel a c AlikeIfAny (r >>= fun e => pure (some e)) (s >>= fun e => pure (some e)) :=
  parallel_bind h fun _ _ he => parallel_pure (.some he)

/-- What is skipped to the end of a group ends in both buffers at the same bracket. -/
theorem parallel_skipToCloseGroup (ha : FreeWord a) (hc : FreeWord c) (start : Nat)
    {body body' : Option Expr} (hb : AlikeIfAny body body') :
    Parallel a c Alike (skipToCloseGroup start body) (skipToCloseGroup start body') := by
  refine parallel_get_bind fun _ _ p q hpq => ?_
  rw [← groupSpan_renamed hpq.ahead]
  refine parallel_bind_eq (parallel_advance _) fun _ => ?_
  dsimp only
  split
  · refine parallel_pure (alike_appendError hb (alike_error _ rfl ?_))
    exact isEmpty_spell_renamed ha hc (List.forall₂_take _ hpq.ahead)
  · exact parallel_bind (parallel_error ha hc _ rfl start) fun _ _ he =>
      parallel_pure (alike_appendError hb he)

/-- Groups in braces go side by side. -/
theorem parallel_braceGroup (ha : FreeWord a) (hc : FreeWord c) (hi : inner.Parallel a c) :
    Parallel a c Alike (braceGroup inner) (braceGroup inner) := by
  refine parallel_bind_eq parallel_index fun start => ?_
  refine parallel_bind_eq (parallel_advance 1) fun _ => ?_
  refine parallel_bind_eq parallel_matchCloseGroup fun closed => ?_
  split
  · exact parallel_pure rfl
  · refine parallel_bind (hi.expression _) fun body body' hb => ?_
    refine parallel_bind_eq parallel_matchCloseGroup fun closed => ?_
    split
    · exact parallel_pure (alike_getD hb _)
    · exact parallel_skipToCloseGroup ha hc start hb

/-- A digit is cut off the same number in both buffers. -/
theorem parallel_takeDigit {p q : Parser} {w v : Nat} {t u : Token} {first rest : String}
    (hpq : Renamed a c w v p q) (ht : p.ahead.head? = some t) (hu : q.ahead.head? = some u)
    (hst : splitDigit? t = some (first, rest)) (hsu : splitDigit? u = some (first, rest)) :
    Renamed a c w v (takeDigit first rest p).2 (takeDigit first rest q).2 where
  behind := .cons (renamed_refl _) hpq.behind
  ahead := .cons (renamed_refl _) (List.forall₂_drop 1 hpq.ahead)
  warnings := hpq.warnings
  depth := hpq.depth
  deepest := hpq.deepest
  tooDeep := hpq.tooDeep
  weight := (follows_takeDigit ht hst).splits.weight.trans hpq.weight
  weight' := (follows_takeDigit hu hsu).splits.weight.trans hpq.weight'

/-- Arguments go side by side: a free word is an operand like any other. -/
theorem parallel_argument (ha : FreeWord a) (hc : FreeWord c) (hi : inner.Parallel a c) :
    Parallel a c AlikeIfAny (argument inner) (argument inner) := by
  intro w v p q hpq
  rw [argument, peek_bind_apply, peek_bind_apply]
  -- which number is cut is known only here, where the token at the cursor is
  have hhead := head?_renamed hpq.ahead
  rcases ht : p.ahead.head? with _ | t <;> rcases hu : q.ahead.head? with _ | u <;>
    rw [ht, hu] at hhead
  · exact ⟨.none, hpq⟩
  · cases hhead
  · cases hhead
  · have htu : Token.Renamed a c t u := by
      cases hhead
      assumption
    dsimp only
    rw [htu.kind_eq, splitDigit?_renamed htu]
    split
    · exact parallel_some (parallel_braceGroup ha hc hi) w v p q hpq
    · cases hs : splitDigit? u with
      | none => exact hi.primary _ w v p q hpq
      | some parts =>
        exact ⟨.some rfl, parallel_takeDigit hpq ht hu ((splitDigit?_renamed htu).trans hs) hs⟩

/-- Arguments in square brackets go side by side. -/
theorem parallel_optionalArgument (ha : FreeWord a) (hc : FreeWord c) (hi : inner.Parallel a c) :
    Parallel a c AlikeIfAny (optionalArgument inner) (optionalArgument inner) := by
  refine parallel_bind_eq parallel_index fun start => ?_
  refine parallel_bind_eq (parallel_matchToken ha hc (by decide)) fun opened => ?_
  split
  · refine parallel_bind (hi.expression _) fun body body' hb => ?_
    refine parallel_bind_eq (parallel_matchToken ha hc (by decide)) fun closed => ?_
    split
    · exact parallel_pure hb
    · exact parallel_bind_eq (parallel_seek start) fun _ => parallel_pure .none
  · exact parallel_pure .none

/-- Arguments in parentheses go side by side. -/
theorem parallel_argumentList (ha : FreeWord a) (hc : FreeWord c) (hi : inner.Parallel a c) :
    Parallel a c (Option.Rel AllAlike) (argumentList inner) (argumentList inner) := by
  refine parallel_rewinding ?_
  refine parallel_bind_eq (parallel_matchToken ha hc (by decide)) fun opened => ?_
  split
  · refine parallel_bind_eq (parallel_matchToken ha hc (by decide)) fun closed => ?_
    split
    · exact parallel_pure (.some rfl)
    · refine parallel_bind (hi.expression _) fun body body' hb => ?_
      refine parallel_bind_eq (parallel_matchToken ha hc (by decide)) fun closed => ?_
      split
      · exact parallel_pure (.some (allAlike_splat hb))
      · exact parallel_pure .none
  · exact parallel_pure .none

/-! ## Operators after an expression -/

/-- Operators of one head between operands that are alike. -/
theorem parallel_infixApplication (hi : inner.Parallel a c) {x y : IndexedEntry}
    (hh : x.head = y.head) {lhs lhs' : Expr} (hl : Alike lhs lhs') (p : Precedence) :
    Parallel a c Alike (infixApplication inner x lhs p) (infixApplication inner y lhs' p) := by
  refine parallel_bind (hi.expression p) fun rhs rhs' hr => parallel_pure ?_
  rw [hh]
  exact alike_apply _ (allAlike_cons hl (allAlike_cons (alike_getD hr _) rfl))

/-- Operators of one head behind operands that are alike. -/
theorem parallel_postfixApplication {x y : IndexedEntry} (hh : x.head = y.head)
    {lhs lhs' : Expr} (hl : Alike lhs lhs') :
    Parallel a c Alike (postfixApplication x lhs) (postfixApplication y lhs') := by
  have hs : AllAlike (splat (some lhs)) (splat (some lhs')) := allAlike_splat (.some hl)
  unfold postfixApplication
  dsimp only
  rw [hh, ← hs.length_eq]
  split
  · exact parallel_bind_eq (parallel_warn _) fun _ => parallel_pure (alike_apply _ hs)
  · exact parallel_pure (alike_apply _ hs)

/-- Twins apply alike, by their head or by the routine they share. -/
theorem parallel_applyOperator (hi : inner.Parallel a c) {x y : Nat × IndexedEntry}
    (h : IndexedEntry.Twins a c x y) {lhs lhs' : Expr} (hl : Alike lhs lhs') (p : Precedence) :
    Parallel a c AlikeIfAny (applyOperator inner x.2 lhs p) (applyOperator inner y.2 lhs' p) := by
  have hroutine := h.routine
  unfold applyOperator
  rw [← h.role, ← h.parse]
  cases x.2.role with
  | postfixOp _ =>
    cases hx : x.2.parse with
    | some handler => exact hroutine handler hx inner hi _ _ p (.some hl)
    | none => exact parallel_some (parallel_postfixApplication h.head hl)
  | infixOp _ side =>
    cases hx : x.2.parse with
    | some handler => exact hroutine handler hx inner hi _ _ _ (.some hl)
    | none => exact parallel_some (parallel_infixApplication hi h.head hl _)
  | _ => exact parallel_pure .none

/-- Twins bind equally tightly. -/
theorem IndexedEntry.Twins.precedence? {x y : Nat × IndexedEntry}
    (h : IndexedEntry.Twins a c x y) : x.2.precedence? = y.2.precedence? :=
  congrArg Role.precedence? h.role

/-- Twins are taken or declined together. -/
theorem parallel_tryOperator (hi : inner.Parallel a c) (min : Precedence) {lhs lhs' : Expr}
    (hl : Alike lhs lhs') {x y : Nat × IndexedEntry} (h : IndexedEntry.Twins a c x y) :
    Parallel a c AlikeIfAny (tryOperator inner min lhs x) (tryOperator inner min lhs' y) := by
  unfold tryOperator
  rw [← IndexedEntry.Twins.precedence? h, ← h.length]
  cases x.2.precedence? with
  | none => exact parallel_pure .none
  | some p =>
    dsimp only
    split
    · refine parallel_rewinding (parallel_bind_eq (parallel_advance _) fun _ => ?_)
      exact parallel_applyOperator hi h hl p
    · exact parallel_pure .none

/-- Juxtaposition goes side by side. -/
theorem parallel_juxtapose (hi : inner.Parallel a c) (min : Precedence) {lhs lhs' : Expr}
    (hl : Alike lhs lhs') :
    Parallel a c AlikeIfAny (juxtapose ix inner min lhs) (juxtapose ix inner min lhs') := by
  unfold juxtapose
  cases (ix.byName? "Multiply").bind IndexedEntry.precedence? with
  | none => exact parallel_pure .none
  | some p =>
    refine parallel_bind_eq parallel_atEnd fun atEnd => ?_
    split
    · exact parallel_pure .none
    · refine parallel_rewinding (parallel_bind (hi.expression _) fun rhs rhs' hr => ?_)
      cases hr with
      | none => exact parallel_pure .none
      | some hr =>
        refine parallel_pure (.some (alike_apply _ (allAlike_append (allAlike_factors hl) ?_)))
        exact allAlike_cons hr rfl

/-- Twins are put in one place among twins. -/
theorem twins_insertCandidate {x y : Nat × IndexedEntry} (hxy : IndexedEntry.Twins a c x y)
    {xs ys : List (Nat × IndexedEntry)} (h : List.Forall₂ (IndexedEntry.Twins a c) xs ys) :
    List.Forall₂ (IndexedEntry.Twins a c) (insertCandidate x xs) (insertCandidate y ys) := by
  induction h with
  | nil => exact .cons hxy .nil
  | @cons x' y' xs ys hxy' hs ih =>
    rw [insertCandidate, insertCandidate, hxy.length, hxy'.length]
    split
    · exact .cons hxy (.cons hxy' hs)
    · exact .cons hxy' ih

/-- The operators ahead are twins in both buffers, in one order. -/
theorem twins_operatorCandidates (hx : ix.Indifferent a c) {ts us : List Token}
    (h : AllRenamed a c ts us) : List.Forall₂ (IndexedEntry.Twins a c)
      (operatorCandidates ix (Token.raws ts)) (operatorCandidates ix (Token.raws us)) := by
  have hbehind := hx.lookup .postfixOp h
  unfold operatorCandidates
  generalize ix.lookup .postfixOp (Token.raws ts) = xs at hbehind ⊢
  generalize ix.lookup .postfixOp (Token.raws us) = ys at hbehind ⊢
  induction hbehind with
  | nil => exact hx.lookup .infixOp h
  | cons hxy _ ih => exact twins_insertCandidate hxy ih

/-- Twins are admitted together. -/
theorem admits_eq_of_twins {x y : Nat × IndexedEntry} (h : IndexedEntry.Twins a c x y)
    (min : Precedence) : admits min x = admits min y := by
  unfold admits
  rw [IndexedEntry.Twins.precedence? h]

/-- A suffix is the same operator in both buffers, or none. -/
theorem parallel_suffix (hx : ix.Indifferent a c) (hi : inner.Parallel a c) (min : Precedence)
    {lhs lhs' : Expr} (hl : Alike lhs lhs') :
    Parallel a c AlikeIfAny (suffix ix inner min lhs) (suffix ix inner min lhs') := by
  refine parallel_bind parallel_upcoming fun _ _ => ?_
  rintro ⟨ts, us, htu, rfl, rfl⟩
  have hcandidates := twins_operatorCandidates hx htu
  generalize operatorCandidates ix (Token.raws ts) = xs at hcandidates ⊢
  generalize operatorCandidates ix (Token.raws us) = ys at hcandidates ⊢
  cases hcandidates with
  | nil => exact parallel_juxtapose hi min hl
  | cons hxy hs =>
    dsimp only
    rw [admits_eq_of_twins hxy min]
    split
    · exact parallel_firstOf (.cons hxy hs) fun _ _ h => parallel_tryOperator hi min hl h
    · exact parallel_pure .none

/-- Rounds of suffixes go side by side. -/
theorem parallel_suffixes (hx : ix.Indifferent a c) (hi : inner.Parallel a c) (min : Precedence)
    {lhs lhs' : Expr} (hl : Alike lhs lhs') :
    Parallel a c Alike (suffixes ix inner min lhs) (suffixes ix inner min lhs') := by
  refine parallel_loop (fun e f hef => ?_) hl
  refine parallel_bind (parallel_suffix hx hi min hef) fun o o' ho => ?_
  cases ho with
  | some h => exact parallel_pure ⟨h, rfl⟩
  | none => exact parallel_pure ⟨hef, rfl⟩

/-! ## Primary expressions -/

/-- Numerals go side by side: no free word is a digit or a separator. -/
theorem parallel_numeral (ha : FreeWord a) (hc : FreeWord c) :
    Parallel a c Alike numeral numeral := by
  refine parallel_get_bind fun _ _ p q hpq => ?_
  rw [← digitGroups_renamed ha hc hpq.ahead]
  refine parallel_bind_eq (parallel_advance _) fun _ => ?_
  refine parallel_get_bind fun _ _ p q hpq => ?_
  rw [← repeatingPart?_renamed ha hc hpq.ahead]
  split
  · exact parallel_bind_eq (parallel_advance _) fun _ => parallel_pure rfl
  · exact parallel_pure rfl

/-- A verbatim text is not a command. -/
theorem parallel_textToken : Parallel a c Eq textToken textToken := by
  refine parallel_bind parallel_peek fun o o' ho => ?_
  cases ho with
  | none => exact parallel_pure rfl
  | @some t u htu =>
    dsimp only
    by_cases hk : t.kind = .text
    · obtain rfl := htu.eq_of_kind (by rw [hk]; decide)
      rw [if_pos hk]
      exact parallel_bind_eq (parallel_advance 1) fun _ => parallel_pure rfl
    · rw [if_neg hk, if_neg fun h => hk (htu.kind_eq.trans h)]
      exact parallel_pure rfl

/-- Texts go side by side, and may quote different words. -/
theorem parallel_text (ha : FreeWord a) (hc : FreeWord c) : Parallel a c Alike text text := by
  refine parallel_bind_eq (parallel_advance 1) fun _ => ?_
  refine parallel_bind_eq parallel_index fun start => ?_
  refine parallel_bind_eq (parallel_matchToken ha hc (by decide)) fun opened => ?_
  split
  · refine parallel_bind_eq parallel_textToken fun text => ?_
    refine parallel_bind_eq parallel_matchCloseGroup fun closed => ?_
    split
    · exact parallel_pure rfl
    · exact parallel_error ha hc _ rfl start
  · exact parallel_pure rfl

/-- Operands between delimiters go side by side, if neither word is the closing delimiter. -/
theorem parallel_delimited (hi : inner.Parallel a c) {close : List String} (ha : a ∉ close)
    (hc : c ∉ close) :
    Parallel a c (Option.Rel AlikeIfAny) (delimited inner close) (delimited inner close) := by
  refine parallel_bind_eq (parallel_matchTokens ha hc) fun closed => ?_
  split
  · exact parallel_pure (.some .none)
  · refine parallel_bind (hi.expression _) fun body body' hb => ?_
    refine parallel_bind_eq (parallel_matchTokens ha hc) fun closed => ?_
    split
    · exact parallel_pure (.some hb)
    · exact parallel_pure .none

/-- Matchfix twins find their closing delimiter together. -/
theorem parallel_tryMatchfix (hi : inner.Parallel a c) {x y : Nat × IndexedEntry}
    (h : IndexedEntry.Twins a c x y) :
    Parallel a c AlikeIfAny (tryMatchfix inner x) (tryMatchfix inner y) := by
  refine parallel_rewinding ?_
  have hroutine := h.routine
  have hclose := h.close
  dsimp only
  rw [← h.length, ← h.role, ← h.parse, ← h.head]
  cases hr : x.2.role.close? with
  | none => exact parallel_pure .none
  | some close =>
    obtain ⟨hac, hcc⟩ := hclose close hr
    refine parallel_bind_eq (parallel_advance _) fun _ => ?_
    refine parallel_bind (parallel_delimited hi hac hcc) fun o o' ho => ?_
    cases ho with
    | none => exact parallel_pure .none
    | some hb =>
      dsimp only
      cases hx : x.2.parse with
      | some handler => exact hroutine handler hx inner hi _ _ _ hb
      | none => exact parallel_pure (.some (alike_apply _ (allAlike_splat hb)))

/-- The candidates of a kind are tried on both sides, each against its twin. -/
theorem parallel_candidates (hx : ix.Indifferent a c) (kind : Kind)
    {step : Nat × IndexedEntry → Reading (Option Expr)}
    (h : ∀ x y, IndexedEntry.Twins a c x y → Parallel a c AlikeIfAny (step x) (step y)) :
    Parallel a c AlikeIfAny (upcoming >>= fun raws => firstOf step (ix.lookup kind raws))
      (upcoming >>= fun raws => firstOf step (ix.lookup kind raws)) := by
  refine parallel_bind parallel_upcoming fun _ _ => ?_
  rintro ⟨ts, us, htu, rfl, rfl⟩
  exact parallel_firstOf (hx.lookup kind htu) h

theorem parallel_matchfix (hx : ix.Indifferent a c) (hi : inner.Parallel a c) :
    Parallel a c AlikeIfAny (matchfix ix inner) (matchfix ix inner) :=
  parallel_candidates hx .matchfix fun _ _ h => parallel_tryMatchfix hi h

/-- The names of environments differ in the two words at most. -/
theorem parallel_takeEnvironmentName (ha : FreeWord a) (hc : FreeWord c) :
    Parallel a c (Option.Rel (RenamedText a c)) takeEnvironmentName takeEnvironmentName := by
  refine parallel_get_bind fun _ _ p q hpq => ?_
  obtain ⟨hname, hlength⟩ := environmentName_renamed ha hc hpq.ahead
  dsimp only
  -- the names may differ, but not in how many tokens they take
  rw [← hlength]
  exact parallel_bind_eq (parallel_advance _) fun _ => parallel_pure hname

/-- What cannot stand in a cell becomes an error with the texts of its own buffer. -/
theorem parallel_unexpectedInCell (ha : FreeWord a) (hc : FreeWord c) {t u : Tabular}
    (h : t.Alike u) : Parallel a c Tabular.Alike (unexpectedInCell t) (unexpectedInCell u) := by
  refine parallel_bind_eq parallel_index fun start => ?_
  refine parallel_bind_eq (parallel_advance 1) fun _ => ?_
  exact parallel_bind (parallel_error ha hc _ rfl start) fun _ _ he =>
    parallel_pure (Tabular.alike_with_cell h (alike_appendError h.cell he))

/-- Rounds over the cells go side by side, since the marks between cells are no free words. -/
theorem parallel_tabularStep (ha : FreeWord a) (hc : FreeWord c) (hi : inner.Parallel a c)
    {t u : Tabular} (h : t.Alike u) :
    Parallel a c (fun r s => Tabular.Alike r.1 s.1 ∧ r.2 = s.2) (tabularStep inner t)
      (tabularStep inner u) := by
  refine parallel_bind parallel_peek fun o o' ho => ?_
  cases ho with
  | none => exact parallel_pure ⟨h, rfl⟩
  | @some token token' htu =>
    -- the marks of an environment are none of the two words, so both sides take the same branch
    have hcell : token = ⟨"&", .char⟩ ↔ token' = ⟨"&", .char⟩ :=
      htu.eq_iff (ha.ne_mark (by decide)) (hc.ne_mark (by decide))
    have hrow : token = ⟨"\\\\", .command⟩ ↔ token' = ⟨"\\\\", .command⟩ :=
      htu.eq_iff (ha.ne_mark (by decide)) (hc.ne_mark (by decide))
    have hend : token = ⟨"\\end", .command⟩ ↔ token' = ⟨"\\end", .command⟩ :=
      htu.eq_iff (ha.ne_of_mem (by decide)) (hc.ne_of_mem (by decide))
    dsimp only
    simp only [hcell, hrow, hend]
    split
    · exact parallel_bind_eq (parallel_advance 1) fun _ =>
        parallel_pure ⟨Tabular.alike_endCell h, rfl⟩
    · split
      · exact parallel_bind_eq (parallel_advance 1) fun _ =>
          parallel_pure ⟨Tabular.alike_endRow h, rfl⟩
      · split
        · refine parallel_bind_eq (parallel_advance 1) fun _ => ?_
          exact parallel_bind (parallel_takeEnvironmentName ha hc) fun _ _ _ =>
            parallel_pure ⟨h, rfl⟩
        · have hunexpected := parallel_unexpectedInCell ha hc h
          have hfilled := h.cell
          cases ht : t.cell <;> cases hu : u.cell <;> rw [ht, hu] at hfilled
          · refine parallel_bind (hi.expression _) fun e f hef => ?_
            cases hef with
            | some hef => exact parallel_pure ⟨Tabular.alike_with_cell h hef, rfl⟩
            | none => exact parallel_bind hunexpected fun _ _ h => parallel_pure ⟨h, rfl⟩
          · cases hfilled
          · cases hfilled
          · exact parallel_bind hunexpected fun _ _ h => parallel_pure ⟨h, rfl⟩

/-- All rounds over the cells go side by side. -/
theorem parallel_tabular (ha : FreeWord a) (hc : FreeWord c) (hi : inner.Parallel a c) :
    Parallel a c Tabular.Alike (tabular inner) (tabular inner) :=
  parallel_loop (fun _ _ h => parallel_tabularStep ha hc hi h) rfl

/-- Environments go side by side, known or unknown. -/
theorem parallel_environment (ha : FreeWord a) (hc : FreeWord c) (hx : ix.Indifferent a c)
    (hi : inner.Parallel a c) :
    Parallel a c AlikeIfAny (environment ix inner) (environment ix inner) := by
  refine parallel_rewinding (parallel_bind_eq (parallel_advance 1) fun _ => ?_)
  refine parallel_bind (parallel_takeEnvironmentName ha hc) fun o o' ho => ?_
  cases ho with
  | none => exact parallel_pure .none
  | @some name name' hname =>
    have hroutine : ∀ e ∈ ix.environments name, ∀ handler ∈ e.parse,
        ParseHandler.TreatsAlike a c handler := fun _ he => hx.routine he
    dsimp only
    rw [← hx.environments hname]
    cases hentries : ix.environments name with
    | nil => exact parallel_pure .none
    | cons e es =>
      rw [hentries] at hroutine
      refine parallel_bind (parallel_tabular ha hc hi) fun t u htu => ?_
      have hcells := Tabular.alike_toExpr htu
      -- these are the same entries on both sides, and not just twins
      have hsame : List.Forall₂ (fun x y => x = y ∧ x ∈ e :: es) (e :: es) (e :: es) :=
        List.forall₂_same.2 fun x hx => ⟨rfl, hx⟩
      refine parallel_firstOf hsame fun x _ => ?_
      rintro ⟨rfl, hmem⟩
      unfold tryEnvironment
      cases hp : x.parse with
      | some handler =>
        exact parallel_rewinding (hroutine x hmem handler hp inner hi _ _ _ (.some hcells))
      | none => exact parallel_pure (.some (alike_apply _ (allAlike_cons hcells rfl)))

/-- Prefix twins are taken or declined together. -/
theorem parallel_tryPrefixOp (hi : inner.Parallel a c) (min : Precedence)
    {x y : Nat × IndexedEntry} (h : IndexedEntry.Twins a c x y) :
    Parallel a c AlikeIfAny (tryPrefixOp inner min x) (tryPrefixOp inner min y) := by
  have hroutine := h.routine
  unfold tryPrefixOp
  dsimp only
  rw [← IndexedEntry.Twins.precedence? h, ← h.length, ← h.parse, ← h.head]
  cases x.2.precedence? with
  | none => exact parallel_pure .none
  | some p =>
    refine parallel_rewinding (parallel_bind_eq (parallel_advance _) fun _ => ?_)
    cases hx : x.2.parse with
    | some handler => exact hroutine handler hx inner hi _ _ _ .none
    | none =>
      refine parallel_bind (hi.expression _) fun operand operand' ho => ?_
      exact parallel_pure (.some (alike_apply _ (allAlike_cons (alike_getD ho _) rfl)))

theorem parallel_prefixOperation (hx : ix.Indifferent a c) (hi : inner.Parallel a c)
    (min : Precedence) :
    Parallel a c AlikeIfAny (prefixOperation ix inner min) (prefixOperation ix inner min) :=
  parallel_candidates hx .prefixOp fun _ _ h => parallel_tryPrefixOp hi min h

/-- Functions of one name go side by side. -/
theorem parallel_functionArguments (ha : FreeWord a) (hc : FreeWord c) (hi : inner.Parallel a c)
    (head : String) :
    Parallel a c Alike (functionArguments inner head) (functionArguments inner head) := by
  refine parallel_bind (parallel_argumentList ha hc hi) fun o o' ho => ?_
  cases ho with
  | some h => exact parallel_pure (alike_apply _ h)
  | none =>
    refine parallel_bind (hi.expression _) fun e f hef => ?_
    cases hef with
    | some hef => exact parallel_pure (alike_apply _ (allAlike_cons hef rfl))
    | none => exact parallel_pure rfl

/-- Symbol twins go side by side. -/
theorem parallel_trySymbol (ha : FreeWord a) (hc : FreeWord c) (hi : inner.Parallel a c)
    {x y : Nat × IndexedEntry} (h : IndexedEntry.Twins a c x y) :
    Parallel a c AlikeIfAny (trySymbol inner x) (trySymbol inner y) := by
  have hroutine := h.routine
  refine parallel_rewinding ?_
  dsimp only
  rw [← h.length, ← h.role, ← h.parse, ← h.head]
  refine parallel_bind_eq (parallel_advance _) fun _ => ?_
  cases hx : x.2.parse with
  | some handler => exact hroutine handler hx inner hi _ _ _ .none
  | none =>
    dsimp only
    split
    · exact parallel_some (parallel_functionArguments ha hc hi _)
    · exact parallel_pure (.some rfl)

/-- Whether the next token is upright is the same in both buffers. -/
theorem any_isUpright_renamed (ha : FreeWord a) (hc : FreeWord c) {o o' : Option Token}
    (h : Option.Rel (Token.Renamed a c) o o') :
    (o.any fun t => Name.isUpright t.raw) = o'.any fun t => Name.isUpright t.raw := by
  have hupright : ∀ {w : String}, FreeWord w → Name.isUpright w = false := by
    intro w hw
    rw [Name.isUpright, beq_eq_false_iff_ne.2 (hw.ne_of_mem (by decide)),
      beq_eq_false_iff_ne.2 (hw.ne_of_mem (by decide))]
    rfl
  cases h with
  | none => rfl
  | some htu =>
    rcases htu with rfl | ⟨rfl, rfl⟩
    · rfl
    · exact (hupright ha).trans (hupright hc).symm

/-- Names that are read as written differ in the two words at most. -/
theorem parallel_namedSymbol (ha : FreeWord a) (hc : FreeWord c) (hi : inner.Parallel a c) :
    Parallel a c AlikeIfAny (namedSymbol inner) (namedSymbol inner) := by
  refine parallel_get_bind fun _ _ p q hpq => ?_
  dsimp only
  rw [← Name.identifier?_renamed ha hc hpq.ahead,
    ← any_isUpright_renamed ha hc (head?_renamed hpq.ahead)]
  split
  · exact parallel_pure .none
  · refine parallel_bind_eq (parallel_advance _) fun _ => ?_
    split
    · refine parallel_bind (parallel_argumentList ha hc hi) fun o o' ho => ?_
      cases ho with
      | some h => exact parallel_pure (.some (alike_apply _ h))
      | none => exact parallel_pure (.some rfl)
    · exact parallel_pure (.some rfl)

/-- Symbols go side by side, from the lexicon or as written. -/
theorem parallel_symbol (ha : FreeWord a) (hc : FreeWord c) (hx : ix.Indifferent a c)
    (hi : inner.Parallel a c) :
    Parallel a c AlikeIfAny (symbol ix inner) (symbol ix inner) := by
  refine parallel_bind parallel_upcoming fun _ _ => ?_
  rintro ⟨ts, us, htu, rfl, rfl⟩
  have hfirst := parallel_firstOf (hx.lookup .identifier htu) fun _ _ h =>
    parallel_trySymbol ha hc hi h
  refine parallel_bind hfirst fun o o' ho => ?_
  cases ho with
  | some h => exact parallel_pure (.some h)
  | none => exact parallel_namedSymbol ha hc hi

/-- What begins an operand goes side by side. -/
theorem parallel_primaryFrom (ha : FreeWord a) (hc : FreeWord c) (hx : ix.Indifferent a c)
    (hi : inner.Parallel a c) (min : Precedence) {t u : Token} (htu : Token.Renamed a c t u) :
    Parallel a c AlikeIfAny (primaryFrom ix inner min t) (primaryFrom ix inner min u) := by
  -- neither word is built in, so both tokens lead the same way
  have htext : t.raw ∈ Token.textCommands ↔ u.raw ∈ Token.textCommands := by
    rcases htu with rfl | ⟨rfl, rfl⟩
    · exact Iff.rfl
    · exact ⟨fun h => absurd h ha.controlWord.text, fun h => absurd h hc.controlWord.text⟩
  have hbegin : t.raw = "\\begin" ↔ u.raw = "\\begin" := htu.builtIn_iff ha hc (by decide)
  unfold primaryFrom
  simp only [htu.kind_eq, htext, hbegin]
  split
  · exact parallel_some (parallel_braceGroup ha hc hi)
  · split
    · exact parallel_pure .none
    · split
      · exact parallel_some (parallel_text ha hc)
      · refine parallel_firstOf (C := Parallel a c AlikeIfAny) ?_ fun _ _ h => h
        refine .cons (parallel_matchfix hx hi) (.cons ?_ (.cons (parallel_prefixOperation hx hi min)
          (.cons (parallel_symbol ha hc hx hi) .nil)))
        split
        · exact parallel_environment ha hc hx hi
        · exact parallel_pure .none

/-- Operands without suffixes go side by side. -/
theorem parallel_primary (ha : FreeWord a) (hc : FreeWord c) (hx : ix.Indifferent a c)
    (hi : inner.Parallel a c) (min : Precedence) :
    Parallel a c AlikeIfAny (primary ix inner min) (primary ix inner min) := by
  refine parallel_bind parallel_peek fun o o' ho => ?_
  cases ho with
  | none => exact parallel_pure .none
  | some htu =>
    dsimp only
    rw [htu.kind_eq]
    split
    · exact parallel_some (parallel_numeral ha hc)
    · exact parallel_primaryFrom ha hc hx hi min htu

end Parser

/-! ## Nesting -/

namespace Nested

open MathMarkup.Parser MathMarkup.Reading

variable {a c : String} {ix : Index} {inner : Nested}

/-- Giving up is the same in both. -/
theorem parallel_giveUp : Reading.Parallel a c AlikeIfAny giveUp giveUp := by
  have hmark : Reading.Parallel a c Eq (modify fun p => { p with tooDeep := true } : Reading Unit)
      (modify fun p => { p with tooDeep := true }) :=
    parallel_modify fun _ _ _ _ hpq => { hpq with tooDeep := rfl }
  exact parallel_bind_eq hmark fun _ => parallel_pure .none

/-- One level deeper goes side by side: the limit is reached in both or in none. -/
theorem parallel_deeper {step : Reading (Option Expr)}
    (h : Reading.Parallel a c AlikeIfAny step step) :
    Reading.Parallel a c AlikeIfAny (deeper step) (deeper step) := by
  have henter : Reading.Parallel a c Eq (modify enter : Reading Unit) (modify enter) :=
    parallel_modify fun _ _ _ _ hpq =>
      { hpq with
        depth := congrArg (· + 1) hpq.depth
        deepest := by
          show max _ _ = max _ _
          rw [hpq.deepest, hpq.depth] }
  have hleave : Reading.Parallel a c Eq (modify leave : Reading Unit) (modify leave) :=
    parallel_modify fun _ _ _ _ hpq => { hpq with depth := congrArg (· - 1) hpq.depth }
  refine parallel_get_bind fun _ _ p q hpq => ?_
  rw [hpq.tooDeep, hpq.depth]
  split
  · exact parallel_pure .none
  · split
    · exact parallel_giveUp
    · refine parallel_bind_eq henter fun _ => parallel_bind h fun e f hef => ?_
      exact parallel_bind_eq hleave fun _ => parallel_pure hef

/-- Operands with their suffixes go side by side. -/
theorem parallel_operation (hx : ix.Indifferent a c)
    (hi : inner.Parallel a c) (min : Precedence) :
    Reading.Parallel a c AlikeIfAny (operation ix inner min) (operation ix inner min) := by
  refine parallel_bind (hi.primary min) fun o o' ho => ?_
  cases ho with
  | some h => exact parallel_some (parallel_suffixes hx hi min h)
  | none => exact parallel_pure .none

/-- At every level the readers go side by side. -/
theorem parallel_atDepth (ha : FreeWord a) (hc : FreeWord c) (hx : ix.Indifferent a c) (n : Nat) :
    (atDepth ix n).Parallel a c := by
  induction n with
  | zero => exact ⟨fun _ => parallel_giveUp, fun _ => parallel_giveUp⟩
  | succ n ih =>
    exact ⟨fun min => parallel_deeper (parallel_operation hx ih min),
      fun min => parallel_deeper (parallel_primary ha hc hx ih min)⟩

end Nested

/-! ## Recovery -/

namespace Parser

open MathMarkup.Reading

variable {a c : String} {ix : Index} {inner : Nested}

/-- Twins without a right operand go side by side. -/
theorem parallel_applyDangling (hi : inner.Parallel a c) {x y : Nat × IndexedEntry}
    (h : IndexedEntry.Twins a c x y) {left left' : Expr} (hl : Alike left left') (p : Precedence) :
    Parallel a c Alike (applyDangling inner x.2 left p) (applyDangling inner y.2 left' p) := by
  refine parallel_bind_eq parallel_index fun start => ?_
  refine parallel_bind (parallel_applyOperator hi h hl p) fun o o' ho => ?_
  cases ho with
  | some he => exact parallel_pure he
  | none =>
    exact parallel_bind_eq (parallel_seek start) fun _ => parallel_infixApplication hi h.head hl _

/-- Recoveries at an operator go side by side. -/
theorem parallel_recoverOperator (hx : ix.Indifferent a c) (hi : inner.Parallel a c)
    {x y : Nat × IndexedEntry} (h : IndexedEntry.Twins a c x y) {lhs lhs' : Option Expr}
    (hl : AlikeIfAny lhs lhs') :
    Parallel a c Alike (recoverOperator ix inner x.1 x.2 lhs)
      (recoverOperator ix inner y.1 y.2 lhs') := by
  obtain ⟨herrors, hleft⟩ := alike_danglingOperand hl
  have hs := isErroredSequence_danglingOperand lhs
  unfold recoverOperator
  dsimp only
  rw [← h.length, ← IndexedEntry.Twins.precedence? h]
  refine parallel_bind_eq (parallel_advance _) fun _ => ?_
  refine parallel_bind (parallel_applyDangling hi h hleft _) fun e f hef => ?_
  exact parallel_bind (parallel_suffixes hx hi _ hef) fun _ _ he =>
    parallel_pure (alike_appendAfterErrors herrors hs he)

/-- The symbol that stops a parse is as long in both buffers. -/
theorem symbolLength?_renamed (ha : FreeWord a) (hc : FreeWord c) (hx : ix.Indifferent a c)
    {ts us : List Token} (h : AllRenamed a c ts us) :
    symbolLength? ix ts = symbolLength? ix us := by
  have hfound := hx.lookup .identifier h
  unfold symbolLength?
  rw [Name.identifier?_renamed ha hc h]
  generalize ix.lookup .identifier (Token.raws ts) = xs at hfound ⊢
  generalize ix.lookup .identifier (Token.raws us) = ys at hfound ⊢
  cases hfound with
  | nil => rfl
  | cons hxy _ => exact congrArg some hxy.length

/-- An opening delimiter stops both parses or neither. -/
theorem openDelimiter?_renamed (hx : ix.Indifferent a c) {ts us : List Token}
    (h : AllRenamed a c ts us) : openDelimiter? ix ts = openDelimiter? ix us := by
  have hfound := hx.lookup .matchfix h
  unfold openDelimiter?
  generalize ix.lookup .matchfix (Token.raws ts) = xs at hfound ⊢
  generalize ix.lookup .matchfix (Token.raws us) = ys at hfound ⊢
  cases hfound with
  | nil =>
    cases h with
    | nil => rfl
    | cons htu _ =>
      dsimp only
      rw [htu.kind_eq]
  | cons hxy _ =>
    dsimp only
    rw [hxy.role, hxy.length]

/-- The close delimiter that an open one asks for holds neither word. -/
theorem not_mem_of_openDelimiter? (ha : FreeWord a) (hc : FreeWord c) (hx : ix.Indifferent a c)
    {ts : List Token} {length : Nat} {close : List String}
    (h : openDelimiter? ix ts = some (length, close)) : a ∉ close ∧ c ∉ close := by
  -- the twins of the tokens with themselves tell enough about the delimiters that are found
  have hfound := hx.lookup .matchfix (allRenamed_refl ts)
  unfold openDelimiter? at h
  generalize ix.lookup .matchfix (Token.raws ts) = xs at hfound h
  cases hfound with
  | nil =>
    have hbrace : ∀ {w : String}, FreeWord w → w ∉ ["\x7d"] := fun hw hm =>
      hw.ne_mark (by decide) (List.mem_singleton.1 hm)
    cases ts with
    | nil => cases h
    | cons t ts =>
      dsimp only at h
      split at h
      · obtain ⟨-, rfl⟩ := Prod.mk.inj (Option.some.inj h)
        exact ⟨hbrace ha, hbrace hc⟩
      · cases h
  | cons hxy _ =>
    obtain ⟨close', hclose, heq⟩ := Option.map_eq_some_iff.1 h
    obtain ⟨-, rfl⟩ := Prod.mk.inj heq
    exact hxy.close _ hclose

/-- A closing delimiter stops both parses or neither. -/
theorem closeDelimiter?_renamed (hx : ix.Indifferent a c) {ts us : List Token}
    (h : AllRenamed a c ts us) : closeDelimiter? ix ts = closeDelimiter? ix us := by
  have hcloses := hx.closes h
  cases h with
  | nil => rfl
  | cons htu _ =>
    unfold closeDelimiter?
    dsimp only
    rw [htu.kind_eq, hcloses]

/-- Recoveries that pass tokens go side by side, with errors of one kind. -/
theorem parallel_recoverTokens (ha : FreeWord a) (hc : FreeWord c) (code : ErrorCode) (length : Nat)
    {lhs lhs' : Option Expr} (hl : AlikeIfAny lhs lhs') :
    Parallel a c Alike (recoverTokens code length lhs) (recoverTokens code length lhs') := by
  refine parallel_bind_eq parallel_index fun start => ?_
  refine parallel_bind_eq (parallel_advance _) fun _ => ?_
  exact parallel_bind (parallel_error ha hc _ rfl start) fun _ _ he =>
    parallel_pure (alike_appendError hl he)

/-- Recoveries at a delimiter go side by side. -/
theorem parallel_recoverDelimiter (ha : FreeWord a) (hc : FreeWord c) (hi : inner.Parallel a c)
    (length : Nat) {close : List String} (hac : a ∉ close) (hcc : c ∉ close)
    {lhs lhs' : Option Expr} (hl : AlikeIfAny lhs lhs') :
    Parallel a c Alike (recoverDelimiter inner length close lhs)
      (recoverDelimiter inner length close lhs') := by
  refine parallel_bind_eq parallel_index fun start => ?_
  refine parallel_bind_eq (parallel_advance _) fun _ => ?_
  refine parallel_bind (hi.expression _) fun _ _ _ => ?_
  refine parallel_bind_eq (parallel_matchTokens hac hcc) fun _ => ?_
  exact parallel_bind (parallel_error ha hc _ rfl start) fun _ _ he =>
    parallel_pure (alike_appendError hl he)

theorem parallel_discardRest (ha : FreeWord a) (hc : FreeWord c) {lhs lhs' : Option Expr}
    (hl : AlikeIfAny lhs lhs') :
    Parallel a c Alike (discardRest lhs) (discardRest lhs') := by
  refine parallel_bind_eq parallel_index fun start => ?_
  refine parallel_bind parallel_peek fun o o' ho => ?_
  obtain ⟨hcode, harg⟩ := unexpected_renamed ho
  dsimp only
  rw [← hcode]
  refine parallel_bind_eq parallel_seekEnd fun _ => ?_
  exact parallel_bind (parallel_error ha hc _ harg start) fun _ _ he =>
    parallel_pure (alike_appendError hl he)

/-- Recoveries follow one rule in both buffers. -/
theorem parallel_recover (ha : FreeWord a) (hc : FreeWord c) (hx : ix.Indifferent a c)
    (hi : inner.Parallel a c) {lhs lhs' : Option Expr} (hl : AlikeIfAny lhs lhs') :
    Parallel a c Alike (recover ix inner lhs) (recover ix inner lhs') := by
  refine parallel_get_bind fun _ _ p q hpq => ?_
  have hfound := hx.lookup .infixOp hpq.ahead
  dsimp only
  rw [← symbolLength?_renamed ha hc hx hpq.ahead, ← openDelimiter?_renamed hx hpq.ahead,
    ← closeDelimiter?_renamed hx hpq.ahead]
  generalize ix.lookup .infixOp (Token.raws p.ahead) = xs at hfound ⊢
  generalize ix.lookup .infixOp (Token.raws q.ahead) = ys at hfound ⊢
  cases hfound with
  | cons hxy _ => exact parallel_recoverOperator hx hi hxy hl
  | nil =>
    dsimp only
    split
    case h_1 | h_3 => exact parallel_recoverTokens ha hc _ _ hl
    case h_2 hopen =>
      obtain ⟨hac, hcc⟩ := not_mem_of_openDelimiter? ha hc hx hopen
      exact parallel_recoverDelimiter ha hc hi _ hac hcc hl
    case h_4 => exact parallel_discardRest ha hc hl

/-- Rounds of recovering go side by side. -/
theorem parallel_recoverAll (ha : FreeWord a) (hc : FreeWord c) (hx : ix.Indifferent a c)
    (hi : inner.Parallel a c) {lhs lhs' : Option Expr} (hl : AlikeIfAny lhs lhs') :
    Parallel a c AlikeIfAny (recoverAll ix inner lhs) (recoverAll ix inner lhs') := by
  refine parallel_loop (fun o o' ho => parallel_get_bind fun _ _ p q hpq => ?_) hl
  rw [isEmpty_renamed hpq.ahead, hpq.tooDeep]
  split
  · exact parallel_pure ⟨ho, rfl⟩
  · exact parallel_bind (parallel_recover ha hc hx hi ho)
      fun _ _ he => parallel_pure ⟨.some he, rfl⟩

/-- Whole parses go side by side. -/
theorem parallel_parseAll (ha : FreeWord a) (hc : FreeWord c) (hx : ix.Indifferent a c) :
    Parallel a c Alike (parseAll ix) (parseAll ix) := by
  have hi := Nested.parallel_atDepth ha hc hx Nested.maxDepth
  refine parallel_bind (hi.expression _) fun first first' hfirst => ?_
  refine parallel_bind (parallel_recoverAll ha hc hx hi hfirst) fun all all' hall => ?_
  refine parallel_get_bind fun _ _ p q hpq => ?_
  rw [hpq.tooDeep]
  split
  · refine parallel_bind_eq parallel_index fun start => ?_
    refine parallel_bind_eq parallel_seekEnd fun _ => ?_
    exact parallel_bind (parallel_error ha hc _ rfl start) fun _ _ he =>
      parallel_pure (alike_appendError hall he)
  · exact parallel_pure (alike_getD hall _)

/-- Renamed tokens give the same expression, up to the texts that it quotes, and the same
warnings. -/
theorem parseTokens_renamed (ha : FreeWord a) (hc : FreeWord c) (hx : ix.Indifferent a c)
    {ts us : List Token} (h : AllRenamed a c ts us) :
    Alike (parseTokens ix ts).1 (parseTokens ix us).1 ∧
      (parseTokens ix ts).2 = (parseTokens ix us).2 := by
  have hstart : Renamed a c (tokensWeight (ofTokens ts).tokens) (tokensWeight (ofTokens us).tokens)
      (ofTokens ts) (ofTokens us) :=
    { behind := .nil
      ahead := dropSpacing_renamed ha hc .none h
      warnings := rfl
      depth := rfl
      deepest := rfl
      tooDeep := rfl
      weight := rfl
      weight' := rfl }
  obtain ⟨halike, hend⟩ := parallel_parseAll ha hc hx _ _ _ _ hstart
  exact ⟨halike, hend.warnings⟩

end Parser
end MathMarkup
