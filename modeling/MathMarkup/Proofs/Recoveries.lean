import Mathlib.Data.List.Forall2
import MathMarkup.Proofs.Completion

/-!
# Recovery after recovery

A parse that stops before the end of its input recovers again and again, and each recovery folds
something into what was read: an error for what it set aside, or a dangling operator with a
placeholder for its left operand. What a sequence that ends in an error becomes is that sequence
with one operand more (`Parser.recovers_of_errored`), so errors line up in one flat sequence for as
long as there are only errors to add.

Only its last operand tells that a sequence holds errors. Behind a dangling operator that was
complete but for its left operand the sequence looks sound, and the next error wraps all of it in
another sequence (`Parser.recovers_of_sound`, `Parser.exists_recovers_nested`). A whole run of
recoveries therefore folds the operands it adds with `appendError`, whatever rules it takes, up to
an operator that takes the sequence itself as its left operand (`Parser.recoveries_of_errored`).
-/

namespace MathMarkup.Parser

open Reading

/-! ## One recovery -/

/-- Some infix operator stands at the cursor. -/
def dangles (ix : Index) (p : Parser) : Bool :=
  !(ix.lookup .infixOp (Token.raws p.ahead)).isEmpty

/-- What was read ends in an error that later errors are put behind. -/
def errored (lhs : Option Expr) : Bool :=
  lhs.any isErroredSequence

/-- One recovery of a parse, from what was read and where the parser stands to the same behind
it. -/
def Recovers (ix : Index) (inner : Nested) (s t : Option Expr × Parser) : Prop :=
  recoveryRound ix inner s.1 s.2 = ((t.1, true), t.2)

variable {ix : Index} {inner : Nested}

theorem recovers_iff {s t : Option Expr × Parser} : Recovers ix inner s t ↔
    (s.2.ahead.isEmpty || s.2.tooDeep) = false ∧ t.1 = some (recover ix inner s.1 s.2).1 ∧
      t.2 = (recover ix inner s.1 s.2).2 := by
  obtain ⟨e, q⟩ := t
  unfold Recovers
  rw [recoveryRound_apply]
  cases s.2.ahead.isEmpty || s.2.tooDeep with
  | true =>
    refine iff_of_false (fun h => ?_) fun h => Bool.false_ne_true h.1.symm
    exact Bool.false_ne_true (Prod.mk.inj (Prod.mk.inj h).1).2
  | false =>
    constructor
    · intro h
      exact ⟨rfl, (Prod.mk.inj (Prod.mk.inj h).1).1.symm, (Prod.mk.inj h).2.symm⟩
    · rintro ⟨-, he, hq⟩
      rw [he, hq]
      rfl

theorem dangles_eq_false_iff {p : Parser} :
    dangles ix p = false ↔ ix.lookup .infixOp (Token.raws p.ahead) = [] := by
  rw [dangles, Bool.not_eq_eq_eq_not, Bool.not_false, List.isEmpty_iff]

/-- Without an operator at the cursor, whichever rule applies, an error for what it consumed is put
behind what was read. -/
theorem recover_of_not_dangles (lhs : Option Expr) {p : Parser} (h : dangles ix p = false) :
    ∃ error : Expr, error.isApply "Error" ∧
      (recover ix inner lhs p).1 = appendError lhs error := by
  unfold recover
  rw [get_bind_apply, dangles_eq_false_iff.1 h]
  -- an identifier, an open delimiter, a close delimiter, or anything else
  cases symbolLength? ix p.ahead with
  | some length => exact ⟨_, rfl, rfl⟩
  | none =>
    cases openDelimiter? ix p.ahead with
    | some delimiter => exact ⟨_, rfl, rfl⟩
    | none =>
      cases closeDelimiter? ix p.ahead with
      | some length => exact ⟨_, rfl, rfl⟩
      | none => exact ⟨_, rfl, rfl⟩

/-- What the operator at the cursor was read as, with the operators after it, is put behind errors
that came before it. -/
theorem recover_of_dangles {lhs : Option Expr} {p : Parser} (hl : errored lhs = true)
    (h : dangles ix p = true) :
    ∃ e : Expr, (recover ix inner lhs p).1 = appendAfterErrors lhs e := by
  obtain ⟨errors, rfl, herrored⟩ := (Option.any_eq_true _ _).1 hl
  unfold recover
  rw [get_bind_apply]
  cases hops : ix.lookup .infixOp (Token.raws p.ahead) with
  | nil => rw [dangles, hops] at h; exact absurd h Bool.false_ne_true
  | cons candidate others =>
    have hsplit : danglingOperand (some errors) = (some errors, Expr.missing) := by
      rw [danglingOperand, if_pos herrored]
    dsimp only
    unfold recoverOperator
    rw [hsplit]
    exact ⟨_, rfl⟩

/-! ## Flat and nested sequences -/

theorem errored_sequence_append (ops : List Expr) {e : Expr} (he : e.isApply "Error") :
    errored (some (.sequence (ops ++ [e]))) = true := by
  have hlast : ((Expr.sequence (ops ++ [e])).operands).getLast? = some e := List.getLast?_concat
  show isErroredSequence (.sequence (ops ++ [e])) = true
  rw [isErroredSequence, hlast, Bool.and_eq_true]
  exact ⟨rfl, he⟩

theorem errored_sequence_append_eq_false (ops : List Expr) {e : Expr}
    (he : e.isApply "Error" = false) : errored (some (.sequence (ops ++ [e]))) = false := by
  have hlast : ((Expr.sequence (ops ++ [e])).operands).getLast? = some e := List.getLast?_concat
  show isErroredSequence (.sequence (ops ++ [e])) = false
  rw [isErroredSequence, hlast, Bool.and_eq_false_iff]
  exact Or.inr he

theorem appendError_of_errored {ops : List Expr} (h : errored (some (.sequence ops)) = true)
    (e : Expr) : appendError (some (.sequence ops)) e = .sequence (ops ++ [e]) := by
  show (if isErroredSequence (.sequence ops) then _ else _) = _
  rw [if_pos (show isErroredSequence (.sequence ops) = true from h)]
  rfl

theorem appendError_of_sound {e : Expr} (h : errored (some e) = false) (error : Expr) :
    appendError (some e) error = .sequence [e, error] := by
  show (if isErroredSequence e then _ else _) = _
  rw [if_neg (by rw [show isErroredSequence e = false from h]; exact Bool.false_ne_true)]

/-- A recovery from a sequence that ends in an error adds one operand to it: an error, unless an
operator dangles. -/
theorem recovers_of_errored {s t : Option Expr × Parser} (h : Recovers ix inner s t)
    {ops : List Expr} (hs : s.1 = some (.sequence ops)) (he : errored s.1 = true) :
    ∃ e : Expr, (dangles ix s.2 = false → e.isApply "Error") ∧
      t.1 = some (.sequence (ops ++ [e])) := by
  obtain ⟨-, ht, -⟩ := recovers_iff.1 h
  rw [ht]
  cases hd : dangles ix s.2 with
  | false =>
    obtain ⟨e, herror, hrec⟩ := @recover_of_not_dangles ix inner s.1 _ hd
    refine ⟨e, fun _ => herror, ?_⟩
    rw [hrec, hs, appendError_of_errored (hs ▸ he)]
  | true =>
    obtain ⟨e, hrec⟩ := @recover_of_dangles ix inner _ _ he hd
    refine ⟨e, nofun, ?_⟩
    rw [hrec, hs]
    rfl

/-- A recovery from anything else, no operator at the cursor, makes a sequence of it and an
error. -/
theorem recovers_of_sound {s t : Option Expr × Parser} (h : Recovers ix inner s t) {e : Expr}
    (hs : s.1 = some e) (he : errored s.1 = false) (hd : dangles ix s.2 = false) :
    ∃ error : Expr, error.isApply "Error" ∧ t.1 = some (.sequence [e, error]) := by
  obtain ⟨-, ht, -⟩ := recovers_iff.1 h
  obtain ⟨error, herror, hrec⟩ := @recover_of_not_dangles ix inner s.1 _ hd
  refine ⟨error, herror, ?_⟩
  rw [ht, hrec, hs, appendError_of_sound (hs ▸ he)]

/-! ## A run of recoveries -/

/-- Some recoveries, the flags telling at which of them an operator dangles, in which no operator
takes what was read as its left operand. -/
inductive Recoveries (ix : Index) (inner : Nested) :
    List Bool → Option Expr × Parser → Option Expr × Parser → Prop where
  | none (s : Option Expr × Parser) : Recoveries ix inner [] s s
  | more {flags : List Bool} {s t u : Option Expr × Parser}
      (hd : dangles ix s.2 = true → errored s.1 = true) (h : Recovers ix inner s t)
      (hr : Recoveries ix inner flags t u) : Recoveries ix inner (dangles ix s.2 :: flags) s u

/-- What some operands make of what was read when they are put behind it one after another. -/
def appendAll (lhs : Option Expr) (added : List Expr) : Option Expr :=
  added.foldl (fun e x => some (appendError e x)) lhs

@[simp] theorem appendAll_nil (lhs : Option Expr) : appendAll lhs [] = lhs := rfl

@[simp] theorem appendAll_cons (lhs : Option Expr) (x : Expr) (added : List Expr) :
    appendAll lhs (x :: added) = appendAll (some (appendError lhs x)) added := rfl

/-- Whatever is put behind a sequence, its first operand stays or goes into a larger one. -/
theorem exists_appendAll (o : Expr) (ops added : List Expr) : ∃ first rest,
    appendAll (some (.sequence (o :: ops))) added = some (.sequence (first :: rest)) ∧
      sizeOf o ≤ sizeOf first := by
  induction added generalizing o ops with
  | nil => exact ⟨o, ops, rfl, Nat.le_refl _⟩
  | cons x added ih =>
    rw [appendAll_cons]
    cases he : errored (some (.sequence (o :: ops))) with
    | true =>
      rw [appendError_of_errored he, List.cons_append]
      exact ih o (ops ++ [x])
    | false =>
      rw [appendError_of_sound he]
      obtain ⟨first, rest, happ, hle⟩ := ih (.sequence (o :: ops)) [x]
      have ho : sizeOf o < sizeOf (Expr.sequence (o :: ops)) := by
        show sizeOf o < sizeOf (Expr.apply "Sequence" (o :: ops))
        simp only [Expr.apply.sizeOf_spec, List.cons.sizeOf_spec]
        omega
      exact ⟨first, rest, happ, Nat.le_of_lt (Nat.lt_of_lt_of_le ho hle)⟩

/-- What is put behind a sequence that ends in an error makes a flat sequence just if all of it but
the last operand are errors. -/
theorem appendAll_eq_sequence_iff {ops added : List Expr}
    (h : errored (some (.sequence ops)) = true) :
    appendAll (some (.sequence ops)) added = some (.sequence (ops ++ added)) ↔
      ∀ x ∈ added.dropLast, x.isApply "Error" := by
  -- on what is put behind: after an error the sequence ends in an error again
  induction added generalizing ops with
  | nil => simp
  | cons x added ih =>
    rw [appendAll_cons, appendError_of_errored h]
    cases added with
    | nil => simp
    | cons y added =>
      rw [List.dropLast_cons_cons, List.forall_mem_cons]
      by_cases hx : x.isApply "Error"
      · rw [← ih (errored_sequence_append ops hx), List.append_assoc, List.singleton_append]
        exact (and_iff_right hx).symm
      · -- the sequence looks sound now, and `y` puts it inside another one, for good
        refine iff_of_false (fun hflat => ?_) fun hall => hx hall.1
        have hsound : errored (some (.sequence (ops ++ [x]))) = false :=
          errored_sequence_append_eq_false ops (Bool.eq_false_iff.2 hx)
        rw [appendAll_cons, appendError_of_sound hsound] at hflat
        obtain ⟨first, rest, happ, hle⟩ := exists_appendAll (.sequence (ops ++ [x])) [y] added
        have hfirst : first ∈ ops := by
          rw [hflat] at happ
          have hops := (Expr.apply.inj (Option.some.inj happ)).2
          cases ops with
          | nil => exact absurd h Bool.false_ne_true
          | cons o ops =>
            rw [List.cons_append] at hops
            rw [← (List.cons.inj hops).1]
            exact List.mem_cons_self ..
        have hlt := List.sizeOf_lt_of_mem (List.mem_append_left [x] hfirst)
        have hseq : sizeOf (ops ++ [x]) < sizeOf (Expr.sequence (ops ++ [x])) := by
          show sizeOf (ops ++ [x]) < sizeOf (Expr.apply "Sequence" (ops ++ [x]))
          simp only [Expr.apply.sizeOf_spec]
          omega
        omega

/-- A run of recoveries from a sequence puts one operand after another behind it, an error wherever
no operator dangles. -/
theorem appendAll_of_recoveries {flags : List Bool} {s t : Option Expr × Parser}
    (h : Recoveries ix inner flags s t) {ops : List Expr} (hs : s.1 = some (.sequence ops)) :
    ∃ added : List Expr,
      List.Forall₂ (fun dangling x => dangling = false → x.isApply "Error") flags added ∧
        t.1 = appendAll s.1 added := by
  induction h generalizing ops with
  | none s => exact ⟨[], .nil, rfl⟩
  | @more flags s t u hd h _ ih =>
    -- either way the recovery leaves a sequence, from which the run goes on
    obtain ⟨e, herror, ops', hops', ht⟩ : ∃ e : Expr,
        (dangles ix s.2 = false → e.isApply "Error") ∧
          ∃ ops', some (appendError s.1 e) = some (.sequence ops') ∧
            t.1 = some (appendError s.1 e) := by
      cases he : errored s.1 with
      | true =>
        obtain ⟨e, herror, ht⟩ := recovers_of_errored h hs he
        have happ : appendError s.1 e = .sequence (ops ++ [e]) := by
          rw [hs, appendError_of_errored (hs ▸ he)]
        exact ⟨e, herror, _, congrArg some happ, by rw [ht, happ]⟩
      | false =>
        have hsound : dangles ix s.2 = false := by
          cases hf : dangles ix s.2 with
          | false => rfl
          | true => exact absurd (hd hf) (by rw [he]; exact Bool.false_ne_true)
        obtain ⟨e, herror, ht⟩ := recovers_of_sound h hs he hsound
        have happ : appendError s.1 e = .sequence [.sequence ops, e] := by
          rw [hs, appendError_of_sound (hs ▸ he)]
        exact ⟨e, fun _ => herror, _, congrArg some happ, by rw [ht, happ]⟩
    obtain ⟨added, hadded, hu⟩ := ih (ht.trans hops')
    refine ⟨e :: added, .cons herror hadded, ?_⟩
    rw [hu, ht, appendAll_cons]

/-! ## The recoveries of a parse -/

/-- The end of a loop is reached by rounds that want another one, the last one apart. -/
theorem reaches_recoverAll (lhs : Option Expr) (p : Parser) :
    Relation.ReflTransGen (Recovers ix inner) (lhs, p) (recoverAll ix inner lhs p) := by
  unfold recoverAll
  fun_induction loop (recoveryRound ix inner) lhs p with
  | case1 lhs p e q heq =>
    rw [recoveryRound_apply] at heq
    split at heq
    · obtain ⟨hlhs, rfl⟩ := Prod.mk.inj heq
      obtain ⟨rfl, -⟩ := Prod.mk.inj hlhs
      exact .refl
    · exact absurd (Prod.mk.inj (Prod.mk.inj heq).1).2 (by decide)
  | case2 lhs p e q heq _ ih => exact .head (show Recovers ix inner (lhs, p) (e, q) from heq) ih
  | case3 lhs p e q heq _ => exact .single (show Recovers ix inner (lhs, p) (e, q) from heq)

/-- How errors line up in every parse, whatever the tokens and whatever the lexicon. The parse is a
run of recoveries. From where it holds a sequence that ends in an error, the recoveries put one
operand after another behind it, as long as no operator takes the sequence itself: an error unless
an operator dangles. The sequence stays flat just if all of them but the last are errors, so in any
case until a dangling operator was read. -/
theorem recoveries_of_parse (ix : Index) (tokens : List Token) :
    let inner := Nested.outermost ix
    let first := inner.expression .loosest (ofTokens tokens)
    let last := recoverAll ix inner first.1 first.2
    Relation.ReflTransGen (Recovers ix inner) first last ∧
    (parseAll ix (ofTokens tokens)).1 = (if last.2.tooDeep then
        appendError last.1 (last.2.seekEnd.errorSince .syntaxError none last.2.index)
      else last.1.getD (.sequence [])) ∧
    ∀ s, Relation.ReflTransGen (Recovers ix inner) first s →
      ∀ ops, s.1 = some (.sequence ops) → errored s.1 = true →
        ∀ flags t, Recoveries ix inner flags s t → ∃ added : List Expr,
          List.Forall₂ (fun dangling x => dangling = false → x.isApply "Error") flags added ∧
          t.1 = appendAll s.1 added ∧
          (t.1 = some (.sequence (ops ++ added)) ↔ ∀ x ∈ added.dropLast, x.isApply "Error") ∧
          (true ∉ flags.dropLast → t.1 = some (.sequence (ops ++ added))) := by
  intro inner first last
  refine ⟨reaches_recoverAll first.1 first.2, ?_, ?_⟩
  · have hparse := parseAll_apply ix (ofTokens tokens)
    dsimp only at hparse
    rw [hparse]
    split <;> rfl
  · intro s _ ops hs he flags t hrun
    obtain ⟨added, hadded, ht⟩ := appendAll_of_recoveries hrun hs
    have hflat : t.1 = some (.sequence (ops ++ added)) ↔
        ∀ x ∈ added.dropLast, x.isApply "Error" := by
      rw [ht, hs]
      exact appendAll_eq_sequence_iff (hs ▸ he)
    refine ⟨added, hadded, ht, hflat, fun hdangling => hflat.2 ?_⟩
    -- without an operator among them, all operands but the last are errors
    have hlast : List.Forall₂ (fun dangling x => dangling = false → x.isApply "Error")
        flags.dropLast added.dropLast := by
      rw [List.dropLast_eq_take, List.dropLast_eq_take, hadded.length_eq]
      exact List.forall₂_take _ hadded
    intro x hx
    obtain ⟨i, rfl⟩ := List.mem_iff_get.1 hx
    have hi : i.1 < flags.dropLast.length := by rw [hlast.length_eq]; exact i.2
    refine hlast.get hi i.2 (Bool.eq_false_iff.2 fun hflag => hdangling ?_)
    rw [← hflag]
    exact List.get_mem _ _

/-- The state that a recovery of the standard lexicon leaves. -/
def recoveredStandard (s : Option Expr × Parser) : Option Expr × Parser :=
  let r := recoveryRound Index.standard (Nested.outermost Index.standard) s.1 s.2
  (r.1.1, r.2)

theorem recovers_recoveredStandard {s : Option Expr × Parser}
    (h : (s.2.ahead.isEmpty || s.2.tooDeep) = false) :
    Recovers Index.standard (Nested.outermost Index.standard) s (recoveredStandard s) := by
  unfold Recovers recoveredStandard
  rw [recoveryRound_apply, h]
  rfl

/-- In `a))=b` two delimiters are set aside, and a dangling operator is read behind them. -/
theorem recoveries_of_parse_delimiters :
    let start := (Nested.outermost Index.standard).expression .loosest
      (ofTokens (Token.scan "a))=b"))
    let s := recoveredStandard start
    let t := recoveredStandard (recoveredStandard s)
    let ops := [Expr.symbol "a", Expr.error .expectedOpenDelimiter none ")"]
    s.1 = some (.sequence ops) ∧ errored s.1 = true ∧
    Recoveries Index.standard (Nested.outermost Index.standard) [false, true] s t ∧
    ∃ error e : Expr, error.isApply "Error" ∧ t.1 = some (.sequence (ops ++ [error, e])) := by
  intro start s t ops
  obtain ⟨hstart, hs, hhalf, hread, herrored, hhalfErrored, hd, hhalfd⟩ :
      (start.2.ahead.isEmpty || start.2.tooDeep) = false ∧
      (s.2.ahead.isEmpty || s.2.tooDeep) = false ∧
      ((recoveredStandard s).2.ahead.isEmpty || (recoveredStandard s).2.tooDeep) = false ∧
      s.1 = some (.sequence ops) ∧ errored s.1 = true ∧ errored (recoveredStandard s).1 = true ∧
      dangles Index.standard s.2 = false ∧
      dangles Index.standard (recoveredStandard s).2 = true := by
    decide +kernel
  have hrun : Recoveries Index.standard (Nested.outermost Index.standard) [false, true] s t := by
    rw [← hd, ← hhalfd]
    exact .more (fun _ => herrored) (recovers_recoveredStandard hs)
      (.more (fun _ => hhalfErrored) (recovers_recoveredStandard hhalf) (.none _))
  obtain ⟨added, hadded, -, -, hflat⟩ := (recoveries_of_parse Index.standard (Token.scan "a))=b")).2.2
    s (.single (recovers_recoveredStandard hstart)) ops hread herrored _ t hrun
  obtain ⟨error, rest, herror, hmore, rfl⟩ := List.forall₂_cons_left_iff.1 hadded
  obtain ⟨e, end', -, hend, rfl⟩ := List.forall₂_cons_left_iff.1 hmore
  obtain rfl := List.forall₂_nil_left_iff.1 hend
  exact ⟨hread, herrored, hrun, error, e, herror rfl, hflat (by decide)⟩

/-- Only the end of a sequence tells that it holds errors: in `a)=b)` the first delimiter and the
equation behind it stand in one sequence, and the second delimiter puts it into another one. -/
theorem exists_recovers_nested : ¬ ∀ (ix : Index) (tokens : List Token)
    (s t : Option Expr × Parser),
    Relation.ReflTransGen (Recovers ix (Nested.outermost ix))
      ((Nested.outermost ix).expression .loosest (ofTokens tokens)) s →
    Recovers ix (Nested.outermost ix) s t →
    ∀ ops, s.1 = some (.sequence ops) → (∃ o ∈ ops, o.isApply "Error") →
      ∃ more, more ≠ [] ∧ t.1 = some (.sequence (ops ++ more)) := by
  intro h
  let start := (Nested.outermost Index.standard).expression .loosest
    (ofTokens (Token.scan "a)=b)"))
  let delimiter := recoveredStandard start
  let equation := recoveredStandard delimiter
  let ops := [.symbol "a", Expr.error .expectedOpenDelimiter none ")",
    .apply "Equal" [Expr.missing, .symbol "b"]]
  obtain ⟨hstart, hdelimiter, hequation, hread, hnested⟩ :
      (start.2.ahead.isEmpty || start.2.tooDeep) = false ∧
      (delimiter.2.ahead.isEmpty || delimiter.2.tooDeep) = false ∧
      (equation.2.ahead.isEmpty || equation.2.tooDeep) = false ∧
      equation.1 = some (.sequence ops) ∧
      (recoveredStandard equation).1 =
        some (.sequence [.sequence ops, Expr.error .expectedOpenDelimiter none ")"]) := by
    decide +kernel
  have hrun := Relation.ReflTransGen.tail (.single (recovers_recoveredStandard hstart))
    (recovers_recoveredStandard hdelimiter)
  have herror : ∃ o ∈ ops, o.isApply "Error" :=
    ⟨_, List.mem_cons_of_mem _ (List.mem_cons_self ..), rfl⟩
  obtain ⟨more, -, hflat⟩ := h _ _ _ _ hrun (recovers_recoveredStandard hequation) ops hread herror
  rw [hnested] at hflat
  -- the first operand is the sequence, not `a`
  exact Expr.noConfusion (List.cons.inj (Expr.apply.inj (Option.some.inj hflat)).2).1

end MathMarkup.Parser
