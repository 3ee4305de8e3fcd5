import MathMarkup.Lexicon.Standard
import MathMarkup.Proofs.Progress

/-!
# Parsing to the end

A parse goes on until every token is consumed: where an expression ends too early, a recovery
consumes at least one token of what stopped it (`Parser.consumes_recover`). So the loops of the
parser end by themselves (`Parser.loopsEnd`). Where the input nests too deeply, an error is put
behind what was read (`Parser.hides_or_contains_syntaxError`).

All that is asked of a lexicon is that its custom routines never go back behind where they are
called. The routines of the standard lexicon cannot (`Index.neverRetreats_standard`).
-/

namespace MathMarkup

/-- A node stands somewhere in an expression. -/
inductive Expr.Contains : Expr → Expr → Prop where
  | here {node : Expr} : Contains node node
  | operand {head : String} {operands : List Expr} {o node : Expr} (ho : o ∈ operands)
      (h : Contains o node) : Contains (.apply head operands) node
  | entry {entries : List (String × Expr)} {kv : String × Expr} {node : Expr}
      (hkv : kv ∈ entries) (h : Contains kv.2 node) : Contains (.table entries) node
  | annotated {markup : String} {e node : Expr} (h : Contains e node) :
      Contains (.annotated markup e) node

/-! ## Recovery -/

namespace Parser

open Reading

variable {ix : Index} {n : Nat} {inner : Nested}

/-- An operator without a right operand does not go back. -/
theorem onward_applyDangling (hi : inner.Progresses ix n) {entry : IndexedEntry}
    (he : entry ∈ ix.latest) (left : Expr) (precedence : Precedence) :
    Onward n (applyDangling inner entry left precedence) := by
  refine ⟨conserves_applyDangling hi.conserves entry left precedence, fun p hp => ?_⟩
  have ha := onward_applyOperator hi he left precedence
  have hle := ha.le p hp
  have hf := ha.conserves p hp
  unfold applyDangling
  rw [bind_apply, bind_apply, show (Reading.index p).2 = p from rfl]
  rcases happly : applyOperator inner entry left precedence p with ⟨o, q⟩
  rw [happly] at hle hf
  cases o with
  | some e => exact hle
  | none =>
    -- the cursor goes back, but only to where the operator's trigger ended
    have hq : (q.seek p.index).AtLevel n := (hf.trans (follows_seek _ _)).atLevel hp
    have := (onward_infixApplication hi.toMoving entry left precedence.tighter).le _ hq
    rw [index_rewind hf] at this
    exact this

/-- A recovery at an operator consumes its trigger at least. -/
theorem consumes_recoverOperator (hx : ix.Arranged) (hi : inner.Progresses ix n) {length : Nat}
    (hl : 0 < length) {entry : IndexedEntry} (he : entry ∈ ix.latest) (lhs : Option Expr) :
    Consumes n (recoverOperator ix inner length entry lhs) := by
  refine consumes_bind (consumes_advance hl) fun _ => ?_
  refine onward_bind (onward_applyDangling hi he _ _) fun combined => ?_
  exact onward_bind (onward_suffixes hx hi _ _) fun _ => onward_pure _

/-- Recovering by passing tokens consumes them. -/
theorem consumes_recoverTokens (code : ErrorCode) {length : Nat} (hl : 0 < length)
    (lhs : Option Expr) : Consumes n (recoverTokens code length lhs) := by
  refine consumes_state_bind (fun _ => rfl) fun start => ?_
  refine consumes_bind (consumes_advance hl) fun _ => ?_
  exact onward_bind (onward_error _ _ _) fun _ => onward_pure _

theorem consumes_recoverDelimiter (hi : inner.Progresses ix n) {length : Nat} (hl : 0 < length)
    (close : List String) (lhs : Option Expr) :
    Consumes n (recoverDelimiter inner length close lhs) := by
  refine consumes_state_bind (fun _ => rfl) fun start => ?_
  refine consumes_bind (consumes_advance hl) fun _ => ?_
  refine onward_bind (hi.expression _).toOnward fun body => ?_
  refine onward_bind (onward_matchTokens _) fun closed => ?_
  exact onward_bind (onward_error _ _ _) fun _ => onward_pure _

theorem consumes_discardRest (lhs : Option Expr) : Consumes n (discardRest lhs) where
  toOnward := by
    refine onward_bind onward_index fun start => onward_bind onward_peek fun first => ?_
    exact onward_bind onward_seekEnd fun _ => onward_bind (onward_error _ _ _) fun _ =>
      onward_pure _
  lt p hp ha := by
    have := List.length_pos_iff.2 ha
    show p.index < (p.advance p.ahead.length).index
    rw [index_advance]
    omega

/-- A symbol has a length. -/
theorem symbolLength?_pos (hx : ix.Arranged) {tokens : List Token} {length : Nat}
    (h : symbolLength? ix tokens = some length) : 0 < length := by
  unfold symbolLength? at h
  cases heq : ix.lookup .identifier (Token.raws tokens) with
  | cons found others =>
    rw [heq] at h
    rw [← Option.some.inj h]
    exact (Index.of_lookup_eq_cons hx heq).2
  | nil =>
    rw [heq] at h
    obtain ⟨⟨name, length'⟩, hn, rfl⟩ := Option.map_eq_some_iff.1 h
    exact identifier?_eq_some hn

theorem openDelimiter?_pos (hx : ix.Arranged) {tokens : List Token} {found : Nat × List String}
    (h : openDelimiter? ix tokens = some found) : 0 < found.1 := by
  unfold openDelimiter? at h
  cases heq : ix.lookup .matchfix (Token.raws tokens) with
  | cons found others =>
    rw [heq] at h
    obtain ⟨close, -, rfl⟩ := Option.map_eq_some_iff.1 h
    exact (Index.of_lookup_eq_cons hx heq).2
  | nil =>
    rw [heq] at h
    dsimp only at h
    split at h
    · split at h
      · rw [← Option.some.inj h]
        exact Nat.one_pos
      · exact absurd h nofun
    · exact absurd h nofun

theorem closeDelimiter?_pos (hx : ix.Arranged) {tokens : List Token} {length : Nat}
    (h : closeDelimiter? ix tokens = some length) : 0 < length := by
  unfold closeDelimiter? at h
  split at h
  · simp at h
  · split at h
    · rw [← Option.some.inj h]
      exact Nat.one_pos
    · exact (Index.of_matchClose?_eq_some hx h).1

/-- Whatever stops a parse, a recovery consumes a token of it. -/
theorem consumes_recover (hx : ix.Arranged) (hi : inner.Progresses ix n) (lhs : Option Expr) :
    Consumes n (recover ix inner lhs) := by
  obtain ⟨next, heq, hrule⟩ := exists_recoveryRule ix inner lhs
  rw [heq]
  refine consumes_state_bind (fun _ => rfl) fun p => ?_
  have h := hrule p
  generalize next p = r at h ⊢
  cases h with
  | operator hm =>
    obtain ⟨he, -, hl, -⟩ := Index.of_mem_lookup hx hm
    exact consumes_recoverOperator hx hi hl he lhs
  | symbol hl => exact consumes_recoverTokens _ (symbolLength?_pos hx hl) lhs
  | opening hl => exact consumes_recoverDelimiter hi (openDelimiter?_pos hx hl) _ lhs
  | closing hl => exact consumes_recoverTokens _ (closeDelimiter?_pos hx hl) lhs
  | rest => exact consumes_discardRest lhs

/-- A round of recovering does nothing at the end of the buffer and after too deep nesting. -/
theorem recoveryRound_apply (ix : Index) (inner : Nested) (lhs : Option Expr) (p : Parser) :
    recoveryRound ix inner lhs p =
      if p.ahead.isEmpty || p.tooDeep then ((lhs, false), p)
      else ((some (recover ix inner lhs p).1, true), (recover ix inner lhs p).2) := by
  show (if p.ahead.isEmpty || p.tooDeep then (pure (lhs, false) : Reading (Option Expr × Bool))
    else recover ix inner lhs >>= fun e => pure (some e, true)) p = _
  split <;> rfl

/-- A round of recovering that wants another one has consumed a token. -/
theorem lt_recoveryRound (hx : ix.Arranged) (hi : inner.Progresses ix n) (lhs : Option Expr)
    {p : Parser} (hp : p.AtLevel n) (h : (recoveryRound ix inner lhs p).1.2 = true) :
    p.index < (recoveryRound ix inner lhs p).2.index := by
  rw [recoveryRound_apply] at h ⊢
  by_cases hc : (p.ahead.isEmpty || p.tooDeep) = true
  · rw [if_pos hc] at h
    exact absurd h Bool.false_ne_true
  · rw [if_neg hc]
    refine (consumes_recover hx hi lhs).lt p hp fun ha => hc ?_
    rw [ha]
    rfl

theorem onward_recoveryRound (hx : ix.Arranged) (hi : inner.Progresses ix n)
    (lhs : Option Expr) : Onward n (recoveryRound ix inner lhs) := by
  refine onward_bind onward_get fun p => ?_
  split
  · exact onward_pure _
  · exact onward_bind (consumes_recover hx hi lhs).toOnward fun _ => onward_pure _

/-- The loop of recoveries ends by itself. -/
theorem repeats_recoverAll (hx : ix.Arranged) (hi : inner.Progresses ix n) (lhs : Option Expr)
    {p : Parser} (hp : p.AtLevel n) :
    Repeats (recoveryRound ix inner) lhs p (recoverAll ix inner lhs p).1
      (recoverAll ix inner lhs p).2 :=
  repeats_loop (fun e => (onward_recoveryRound hx hi e).conserves)
    (fun e _ hp h => lt_recoveryRound hx hi e hp h) lhs p hp

/-- Recoveries end at the end of the tokens, or because the input nests too deeply. -/
theorem ahead_of_repeats_recoveryRound {lhs e : Option Expr} {p q : Parser}
    (h : Repeats (recoveryRound ix inner) lhs p e q) : q.ahead = [] ∨ q.tooDeep = true := by
  induction h with
  | last h =>
    rw [recoveryRound_apply] at h
    split at h
    case isTrue hc =>
      obtain ⟨-, rfl⟩ := Prod.mk.inj h
      rw [Bool.or_eq_true, List.isEmpty_iff] at hc
      exact hc
    case isFalse => exact absurd (Prod.mk.inj (Prod.mk.inj h).1).2 (by decide)
  | again _ _ ih => exact ih

/-- An expression that hides the errors which are put behind it: an annotation around a sequence
that ends in an error already. -/
def Hides (e : Expr) : Prop :=
  ∃ markup inner, isErroredSequence inner = true ∧ e = .annotated markup inner

/-- An error that is put behind what was read stands in the result, unless the result hides it. -/
theorem contains_appendError (lhs : Option Expr) (error : Expr) :
    (appendError lhs error).Contains error ∨ Hides (appendError lhs error) := by
  cases lhs with
  | none => exact Or.inl .here
  | some e =>
    have happly : appendError (some e) error =
        if isErroredSequence e then pushOperand e error else .sequence [e, error] := rfl
    rw [happly]
    -- an error is put behind the operands of an errored sequence, or both become a new one
    by_cases h : isErroredSequence e = true
    · rw [if_pos h]
      cases e with
      | apply head operands =>
        have hc : Expr.Contains (.apply head (operands ++ [error])) error :=
          .operand (List.mem_append_right _ (List.mem_singleton_self _)) .here
        exact Or.inl hc
      | annotated markup e => exact Or.inr ⟨markup, e, h, rfl⟩
      | _ => exact absurd h Bool.false_ne_true
    · rw [if_neg h]
      have hc : Expr.Contains (.apply "Sequence" [e, error]) error :=
        .operand (List.mem_cons_of_mem _ (List.mem_singleton_self _)) .here
      exact Or.inl hc

/-- Where every token is consumed there is nothing to recover. -/
theorem recoverAll_of_end (ix : Index) (inner : Nested) (lhs : Option Expr) {p : Parser}
    (hp : p.ahead = []) : recoverAll ix inner lhs p = (lhs, p) := by
  have hround : recoveryRound ix inner lhs p = ((lhs, false), p) := by
    show (if (p.ahead.isEmpty || p.tooDeep) = true then _ else _ : Reading _) p = _
    rw [hp]
    rfl
  rw [recoverAll, Reading.loop, hround]

/-- What a parse makes of what the recoveries left. -/
theorem parseAll_apply (ix : Index) (p : Parser) :
    let first := (Nested.outermost ix).expression .loosest p
    let all := recoverAll ix (Nested.outermost ix) first.1 first.2
    parseAll ix p = if all.2.tooDeep then
        (appendError all.1 (all.2.seekEnd.errorSince .syntaxError none all.2.index),
          all.2.seekEnd)
      else (all.1.getD (.sequence []), all.2) := by
  intro first all
  show (if all.2.tooDeep = true then (do
      let start ← Reading.index
      modify seekEnd
      return appendError all.1 (← Reading.error .syntaxError none start) : Reading Expr)
    else return all.1.getD (.sequence [])) all.2 = _
  rw [ite_apply]
  rfl

/-- An expression up to the end of the input is the result of the parse. -/
theorem parseAll_of_expression {ix : Index} {p q : Parser} {e : Expr}
    (h : (Nested.outermost ix).expression .loosest p = (some e, q)) (hend : q.ahead = [])
    (hdeep : q.tooDeep = false) : parseAll ix p = (e, q) := by
  have hparse := parseAll_apply ix p
  dsimp only at hparse
  rw [h, recoverAll_of_end ix _ _ hend, if_neg (by rw [hdeep]; exact Bool.false_ne_true)] at hparse
  exact hparse

/-- Input that nests too deeply leaves a syntax error in the result, unless the result hides it. -/
theorem hides_or_contains_syntaxError {ix : Index} {p : Parser}
    (hdeep : (parseAll ix p).2.tooDeep = true) :
    (∃ arg markup, (parseAll ix p).1.Contains (Expr.error .syntaxError arg markup)) ∨
      Hides (parseAll ix p).1 := by
  have hparse := parseAll_apply ix p
  dsimp only at hparse
  generalize recoverAll ix (Nested.outermost ix)
    ((Nested.outermost ix).expression .loosest p).1
    ((Nested.outermost ix).expression .loosest p).2 = all at hparse
  by_cases ht : all.2.tooDeep = true
  · rw [if_pos ht] at hparse
    rw [hparse]
    exact (contains_appendError _ _).imp (fun hc => ⟨_, _, hc⟩) id
  · rw [if_neg ht] at hparse
    rw [hparse] at hdeep
    exact absurd hdeep ht

end Parser

/-! ## The routines of the standard lexicon -/

/-- The custom parse routine of an entry. -/
def Entry.routine? (e : Entry) : Option ParseHandler :=
  match e.parse with
  | some (.custom handler) => some handler
  | _ => none

open Lexicon Lexicon.Structure Lexicon.Arithmetic in
theorem routines_standard : Lexicon.standard.filterMap Entry.routine? = [
    collecting "Sequence", parseGroup, parseGroup, parseGroup, parseSubscript, collecting "Add",
    parseNegate, collecting "Multiply", collecting "Multiply", collecting "Multiply",
    parseFraction, parsePower, parseRoot, collecting "And", collecting "And", collecting "Or",
    collecting "Or"] := rfl

open Lexicon Lexicon.Structure Lexicon.Arithmetic in
/-- What holds of each sort of routine holds of all routines of the standard lexicon. -/
theorem forall_routines_standard {P : ParseHandler → Prop}
    (collects : ∀ head ∈ ["Sequence", "Add", "Multiply", "And", "Or"], P (collecting head))
    (group : P parseGroup) (subscript : P parseSubscript) (negate : P parseNegate)
    (fraction : P parseFraction) (power : P parsePower) (root : P parseRoot) :
    ∀ handler ∈ Lexicon.standard.filterMap Entry.routine?, P handler := by
  rw [routines_standard]
  simp only [List.forall_mem_cons] at collects ⊢
  obtain ⟨hsequence, hadd, hmultiply, hand, hor, -⟩ := collects
  exact ⟨hsequence, group, group, group, subscript, hadd, negate, hmultiply, hmultiply, hmultiply,
    fraction, power, root, hand, hand, hor, hor, by simp⟩

/-- A usable entry has the routine of the entry it was made from. -/
theorem Index.routine_of_mem_latest {lexicon : List Entry} {e : IndexedEntry}
    {handler : ParseHandler} (he : e ∈ (ofEntries lexicon).1.latest)
    (hh : e.parse = some handler) : handler ∈ lexicon.filterMap Entry.routine? := by
  rw [latest_ofEntries, List.mem_reverse, List.mem_filterMap] at he
  obtain ⟨entry, hm, hu⟩ := he
  refine List.mem_filterMap.2 ⟨entry, hm, ?_⟩
  obtain ⟨role, -, rfl⟩ := usable?_eq_some_iff.1 hu
  exact hh

/-- No routine of the standard lexicon goes back: each asks for an expression or an argument, or
for two. -/
theorem neverSeeks_standard : ∀ handler ∈ Lexicon.standard.filterMap Entry.routine?,
    handler.NeverSeeks := by
  refine forall_routines_standard (P := ParseHandler.NeverSeeks) (fun head _ => ?_) ?_ ?_ ?_ ?_ ?_ ?_
  case refine_2 => exact fun _ _ => trivial
  case refine_1 | refine_3 | refine_4 | refine_6 => exact fun _ _ => ⟨nofun, fun _ => trivial⟩
  case refine_5 | refine_7 => exact fun _ _ => ⟨nofun, fun _ => ⟨nofun, fun _ => trivial⟩⟩

/-- No routine of the standard lexicon goes back before where it was called. -/
theorem Index.neverRetreats_standard : Index.standard.NeverRetreats :=
  neverRetreats_of_neverSeeks (arranged_ofEntries _) fun _ he handler hh =>
    neverSeeks_standard handler (routine_of_mem_latest he hh)

end MathMarkup
