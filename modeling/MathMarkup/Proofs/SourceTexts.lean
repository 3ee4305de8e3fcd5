import MathMarkup.Parser.Recovery

/-!
# Expressions up to source texts

An error node quotes the input: the markup that it covers is a string in a `Latex` node, and the
argument of its code, such as the offending command, is a string behind the code. Two inputs that
differ only in how something is spelled give error nodes that differ in these texts and nowhere
else. `Expr.unsourced` blanks them, wherever such a node stands, and `Expr.Alike` compares what is
left.

Whatever the parser does with expressions that it has read goes through with the blanks: it looks at
heads, takes sequences and products apart and puts expressions under new heads, but it never looks
into a string.
-/

namespace MathMarkup
namespace Expr

/-! ## Blanking -/

/-- A string literal loses its text. -/
def blank : Expr → Expr
  | .string _ => .string ""
  | e => e

/-- The operands of a head, with the texts blanked that it quotes: those of a `Latex` node, and
those behind the code of an `ErrorCode` node. -/
def blankOperands (head : String) (operands : List Expr) : List Expr :=
  if head = "Latex" then operands.map blank
  else if head = "ErrorCode" then
    match operands with
    | [] => []
    | code :: args => code :: args.map blank
  else operands

mutual
/-- The expression with the texts blanked that it quotes from its source, at any depth. -/
def unsourced : Expr → Expr
  | .apply head operands => .apply head (blankOperands head (unsourcedAll operands))
  | .table entries => .table (unsourcedEntries entries)
  | .annotated markup e => .annotated markup e.unsourced
  | e => e
/-- The expressions with the texts blanked that they quote from their source. -/
def unsourcedAll : List Expr → List Expr
  | [] => []
  | e :: es => e.unsourced :: unsourcedAll es
/-- The entries with the texts blanked that they quote from their source. -/
def unsourcedEntries : List (String × Expr) → List (String × Expr)
  | [] => []
  | (key, e) :: es => (key, e.unsourced) :: unsourcedEntries es
end

/-- Blanking a list is blanking its members. -/
theorem unsourcedAll_eq (es : List Expr) : unsourcedAll es = es.map unsourced := by
  induction es with
  | nil => rfl
  | cons e es ih => rw [unsourcedAll, ih, List.map_cons]

/-- An application is blanked in its operands, and then by its head. -/
theorem unsourced_apply (head : String) (operands : List Expr) :
    (Expr.apply head operands).unsourced =
      .apply head (blankOperands head (operands.map unsourced)) := by
  rw [unsourced, unsourcedAll_eq]

/-- A head that quotes nothing. -/
def Unquoting (head : String) : Prop :=
  head ≠ "Latex" ∧ head ≠ "ErrorCode"

instance (head : String) : Decidable (Unquoting head) :=
  inferInstanceAs (Decidable (_ ∧ _))

/-- Under a head that quotes nothing, no operand is blanked. -/
theorem blankOperands_unquoting {head : String} (h : Unquoting head) (operands : List Expr) :
    blankOperands head operands = operands := by
  unfold blankOperands
  rw [if_neg h.1, if_neg h.2]

theorem unquoting_sequence : Unquoting "Sequence" := by decide

/-- Under a head that quotes nothing, the operands are blanked each for itself. -/
theorem unsourced_apply_unquoting {head : String} (h : Unquoting head) (operands : List Expr) :
    (Expr.apply head operands).unsourced = .apply head (operands.map unsourced) := by
  rw [unsourced_apply, blankOperands_unquoting h]

/-- A sequence quotes nothing. -/
theorem unsourced_sequence (operands : List Expr) :
    (sequence operands).unsourced = sequence (operands.map unsourced) :=
  unsourced_apply_unquoting unquoting_sequence operands

/-! ## What the parser asks about expressions -/

/-- Blanking leaves annotations around what is blanked. -/
theorem strip_unsourced (e : Expr) : e.unsourced.strip = e.strip.unsourced := by
  fun_induction strip e with
  | case1 m e ih => rw [unsourced, strip, ih]
  | case2 e h =>
    cases e with
    | annotated m e => exact absurd rfl (h m e)
    | _ => simp only [unsourced, strip]

/-- Blanking does not change the head. -/
theorem head?_unsourced (e : Expr) : e.unsourced.head? = e.head? := by
  rw [head?, head?, strip_unsourced]
  cases he : e.strip with
  | annotated m inner => exact absurd he (strip_ne_annotated e m inner)
  | _ => simp only [unsourced]

/-- Blanking does not change what an expression is an application of. -/
theorem isApply_unsourced (e : Expr) (head : String) :
    e.unsourced.isApply head = e.isApply head := by
  rw [isApply, isApply, head?_unsourced]

/-- Under a head that quotes nothing, the operands are those that were blanked. -/
theorem operands_unsourced {e : Expr} {head : String} (hp : Unquoting head)
    (he : e.isApply head = true) : e.unsourced.operands = e.operands.map unsourced := by
  rw [operands, operands, strip_unsourced]
  rw [isApply, head?, beq_iff_eq] at he
  cases hs : e.strip with
  | apply own operands =>
    rw [hs] at he
    obtain rfl := Option.some.inj he
    rw [unsourced_apply_unquoting hp]
  | _ =>
    rw [hs] at he
    exact absurd he nofun

/-- An expression is spread into the same operands. -/
theorem splat_unsourced (o : Option Expr) :
    splat (o.map unsourced) = (splat o).map unsourced := by
  cases o with
  | none => rfl
  | some e =>
    rw [Option.map_some, splat, splat, strip_unsourced]
    cases hs : e.strip with
    | annotated m inner => exact absurd hs (strip_ne_annotated e m inner)
    | apply head operands =>
      rw [unsourced_apply]
      dsimp only
      by_cases hh : head = "Sequence"
      · rw [if_pos hh, if_pos hh, hh, blankOperands_unquoting unquoting_sequence]
      · rw [if_neg hh, if_neg hh, List.map_singleton, unsourced_apply]
    | _ => simp only [unsourced, List.map_singleton]

/-! ## Alike expressions -/

/-- The expressions differ only in texts that they quote from their source. -/
def Alike (e f : Expr) : Prop :=
  e.unsourced = f.unsourced

/-- Both are missing, or both are there and alike. -/
abbrev AlikeIfAny (o o' : Option Expr) : Prop :=
  Option.Rel Alike o o'

/-- As many expressions, each alike. -/
def AllAlike (es fs : List Expr) : Prop :=
  es.map unsourced = fs.map unsourced

/-- Expressions that are alike are the same when they are blanked. -/
theorem map_unsourced_of_alikeIfAny {o o' : Option Expr} (h : AlikeIfAny o o') :
    o.map unsourced = o'.map unsourced := by
  cases h with
  | none => rfl
  | some h => exact congrArg some h

/-- One more pair of expressions that are alike. -/
theorem allAlike_cons {e f : Expr} {es fs : List Expr} (h : Alike e f) (hs : AllAlike es fs) :
    AllAlike (e :: es) (f :: fs) := by
  rw [AllAlike, List.map_cons, List.map_cons, show e.unsourced = f.unsourced from h,
    show es.map unsourced = fs.map unsourced from hs]

/-- Lists that are alike, in a row. -/
theorem allAlike_append {es es' fs fs' : List Expr} (h : AllAlike es fs)
    (h' : AllAlike es' fs') : AllAlike (es ++ es') (fs ++ fs') := by
  rw [AllAlike, List.map_append, List.map_append, show es.map unsourced = fs.map unsourced from h,
    show es'.map unsourced = fs'.map unsourced from h']

/-- Lists that are alike are as long. -/
theorem AllAlike.length_eq {es fs : List Expr} (h : AllAlike es fs) : es.length = fs.length := by
  have := congrArg List.length (show es.map unsourced = fs.map unsourced from h)
  rwa [List.length_map, List.length_map] at this

/-- Under one head, operands that are alike make expressions that are alike. -/
theorem alike_apply (head : String) {es fs : List Expr} (h : AllAlike es fs) :
    Alike (.apply head es) (.apply head fs) := by
  rw [Alike, unsourced_apply, unsourced_apply, show es.map unsourced = fs.map unsourced from h]

/-- What was read, or the same in its place. -/
theorem alike_getD {o o' : Option Expr} (h : AlikeIfAny o o') (e : Expr) :
    Alike (o.getD e) (o'.getD e) := by
  cases h with
  | none => rfl
  | some h => exact h

/-- Expressions that are alike are spread into operands that are alike. -/
theorem allAlike_splat {o o' : Option Expr} (h : AlikeIfAny o o') :
    AllAlike (splat o) (splat o') := by
  rw [AllAlike, ← splat_unsourced, ← splat_unsourced, map_unsourced_of_alikeIfAny h]

/-- Expressions that are alike are applications of the same heads. -/
theorem isApply_eq_of_alike {e f : Expr} (h : Alike e f) (head : String) :
    e.isApply head = f.isApply head := by
  rw [← isApply_unsourced, ← isApply_unsourced f, show e.unsourced = f.unsourced from h]

/-- Under a head that quotes nothing, alike expressions have alike operands. -/
theorem allAlike_operands {e f : Expr} {head : String} (hp : Unquoting head) (h : Alike e f)
    (he : e.isApply head = true) : AllAlike e.operands f.operands := by
  have hf : f.isApply head = true := by rw [← isApply_eq_of_alike h, he]
  rw [AllAlike, ← operands_unsourced hp he, ← operands_unsourced hp hf,
    show e.unsourced = f.unsourced from h]

/-- Error nodes with one code are alike, whatever the argument and the markup they cover, as long as
both have an argument or neither has, and likewise for the markup. -/
theorem alike_error (code : ErrorCode) {arg arg' : Option String}
    (ha : arg.isSome = arg'.isSome) {markup markup' : String}
    (hm : markup.isEmpty = markup'.isEmpty) :
    Alike (error code arg markup) (error code arg' markup') := by
  have hcontext : AllAlike
      (if markup.isEmpty then [] else [.apply "Latex" [.string markup]])
      (if markup'.isEmpty then [] else [.apply "Latex" [.string markup']]) := by
    rw [hm]
    split
    · rfl
    · refine allAlike_cons ?_ rfl
      rw [Alike, unsourced_apply, unsourced_apply]
      rfl
  cases arg <;> cases arg'
  · exact alike_apply "Error" (allAlike_cons rfl hcontext)
  · exact absurd ha Bool.false_ne_true
  · exact absurd ha.symm Bool.false_ne_true
  · refine alike_apply "Error" (allAlike_cons ?_ hcontext)
    rw [Alike, unsourced_apply, unsourced_apply]
    rfl

end Expr

namespace Parser

open Expr

/-! ## What the parser puts together -/

namespace Tabular

/-- The cells with the texts blanked that they quote from their source. -/
def unsourced (t : Tabular) : Tabular where
  rows := t.rows.map (·.map (·.map Expr.unsourced))
  row := t.row.map (·.map Expr.unsourced)
  cell := t.cell.map Expr.unsourced

/-- The cells differ only in texts that they quote from their source. -/
def Alike (t u : Tabular) : Prop :=
  t.unsourced = u.unsourced

/-- The end of a cell is the same for blanked cells. -/
theorem endCell_unsourced (t : Tabular) : t.endCell.unsourced = t.unsourced.endCell := by
  simp only [unsourced, endCell, List.map_append, List.map_singleton, Option.map_none]

/-- The end of a row is the same for blanked cells. -/
theorem endRow_unsourced (t : Tabular) : t.endRow.unsourced = t.unsourced.endRow := by
  simp only [unsourced, endRow, List.map_append, List.map_singleton, Option.map_none, List.map_nil]

/-- The rows of blanked cells. -/
theorem allRows_unsourced (t : Tabular) :
    t.unsourced.allRows = t.allRows.map (·.map (·.map Expr.unsourced)) := by
  obtain ⟨rows, row, cell⟩ := t
  cases row <;> cases cell <;> simp [unsourced, allRows]

/-- A table of cells quotes nothing of its own. -/
theorem toExpr_unsourced (t : Tabular) : t.toExpr.unsourced = t.unsourced.toExpr := by
  have hlist : Unquoting "List" := by decide
  have hcell : ∀ cell : Option Expr,
      (cell.getD (.sequence [])).unsourced = (cell.map Expr.unsourced).getD (.sequence []) := by
    intro cell
    cases cell with
    | none => exact unsourced_sequence []
    | some e => rfl
  rw [toExpr, toExpr, allRows_unsourced, unsourced_apply_unquoting hlist]
  simp only [List.map_map, Function.comp_def, unsourced_apply_unquoting hlist, hcell]

/-- Cells that are alike end alike. -/
theorem alike_endCell {t u : Tabular} (h : t.Alike u) : t.endCell.Alike u.endCell := by
  rw [Alike, endCell_unsourced, endCell_unsourced, show t.unsourced = _ from h]

/-- Rows that are alike end alike. -/
theorem alike_endRow {t u : Tabular} (h : t.Alike u) : t.endRow.Alike u.endRow := by
  rw [Alike, endRow_unsourced, endRow_unsourced, show t.unsourced = _ from h]

/-- Cells that are alike make tables that are alike. -/
theorem alike_toExpr {t u : Tabular} (h : t.Alike u) : Expr.Alike t.toExpr u.toExpr := by
  rw [Expr.Alike, toExpr_unsourced, toExpr_unsourced, show t.unsourced = _ from h]

theorem Alike.cell {t u : Tabular} (h : t.Alike u) : AlikeIfAny t.cell u.cell := by
  have hcell : t.cell.map Expr.unsourced = u.cell.map Expr.unsourced :=
    congrArg Tabular.cell (show t.unsourced = u.unsourced from h)
  cases ht : t.cell <;> cases hu : u.cell <;> rw [ht, hu] at hcell
  · exact .none
  · cases hcell
  · cases hcell
  · exact .some (Option.some.inj hcell)

/-- A cell in the place of the one at hand. -/
theorem alike_with_cell {t u : Tabular} (h : t.Alike u) {e f : Expr} (he : Expr.Alike e f) :
    Tabular.Alike { t with cell := some e } { u with cell := some f } := by
  have hrows := congrArg Tabular.rows (show t.unsourced = u.unsourced from h)
  have hrow := congrArg Tabular.row (show t.unsourced = u.unsourced from h)
  rw [Alike, unsourced, unsourced, Tabular.mk.injEq]
  exact ⟨hrows, hrow, congrArg some he⟩

end Tabular

/-- Whether a sequence ends in an error is seen through blanking. -/
theorem isErroredSequence_unsourced (e : Expr) :
    isErroredSequence e.unsourced = isErroredSequence e := by
  rw [isErroredSequence, isErroredSequence, isApply_unsourced]
  cases hs : e.isApply "Sequence" with
  | false => rfl
  | true =>
    rw [operands_unsourced unquoting_sequence hs, List.getLast?_map]
    cases e.operands.getLast? with
    | none => rfl
    | some last =>
      dsimp only [Option.map_some]
      rw [isApply_unsourced]

/-- Whether a sequence ends in an error is the same for alike expressions. -/
theorem isErroredSequence_eq {e f : Expr} (h : Alike e f) :
    isErroredSequence e = isErroredSequence f := by
  rw [← isErroredSequence_unsourced, ← isErroredSequence_unsourced f,
    show e.unsourced = f.unsourced from h]

/-- A sequence that ends in an error has the head of a sequence, unless it is annotated. -/
theorem head_of_isErroredSequence {head : String} {operands : List Expr}
    (h : isErroredSequence (.apply head operands) = true) : head = "Sequence" := by
  rw [isErroredSequence, Bool.and_eq_true, isApply, beq_iff_eq] at h
  exact Option.some.inj h.1

/-- One more operand of a sequence that ends in an error. -/
theorem pushOperand_unsourced {e : Expr} (h : isErroredSequence e = true) (operand : Expr) :
    (pushOperand e operand).unsourced = pushOperand e.unsourced operand.unsourced := by
  cases e with
  | apply head operands =>
    rw [pushOperand, head_of_isErroredSequence h, unsourced_apply_unquoting unquoting_sequence,
      unsourced_apply_unquoting unquoting_sequence, pushOperand, List.map_append, List.map_singleton]
  | _ => simp only [pushOperand, unsourced]

/-- Errors that are alike, behind what is alike. -/
theorem alike_appendError {lhs lhs' : Option Expr} (hl : AlikeIfAny lhs lhs') {error error' : Expr}
    (he : Alike error error') : Alike (appendError lhs error) (appendError lhs' error') := by
  cases hl with
  | none => exact he
  | @some e f hef =>
    rw [appendError, appendError, ← isErroredSequence_eq hef]
    cases hs : isErroredSequence e with
    | true =>
      rw [if_pos rfl, if_pos rfl, Alike, pushOperand_unsourced hs,
        pushOperand_unsourced (isErroredSequence_eq hef ▸ hs), show e.unsourced = _ from hef,
        show error.unsourced = _ from he]
    | false => exact alike_apply "Sequence" (allAlike_cons hef (allAlike_cons he rfl))

/-- The factors of a product are seen through blanking. -/
theorem factors_unsourced (e : Expr) : factors e.unsourced = (factors e).map unsourced := by
  cases e with
  | apply head operands =>
    rw [unsourced_apply, factors, factors]
    by_cases hh : head = "Multiply"
    · rw [if_pos hh, if_pos hh, hh, blankOperands_unquoting (by decide)]
    · rw [if_neg hh, if_neg hh, List.map_singleton, unsourced_apply]
  | _ => simp only [unsourced, factors, List.map_singleton]

/-- Expressions that are alike have factors that are alike. -/
theorem allAlike_factors {e f : Expr} (h : Alike e f) : AllAlike (factors e) (factors f) := by
  rw [AllAlike, ← factors_unsourced, ← factors_unsourced, show e.unsourced = _ from h]

/-- What a dangling operator finds on its left: errors to keep, and an operand. -/
theorem alike_danglingOperand {lhs lhs' : Option Expr} (h : AlikeIfAny lhs lhs') :
    AlikeIfAny (danglingOperand lhs).1 (danglingOperand lhs').1 ∧
      Alike (danglingOperand lhs).2 (danglingOperand lhs').2 := by
  cases h with
  | none => exact ⟨.none, rfl⟩
  | some hef =>
    rw [danglingOperand, danglingOperand, ← isErroredSequence_eq hef]
    split
    · exact ⟨.some hef, rfl⟩
    · exact ⟨.none, hef⟩

/-- What an operator leaves of what was read is a sequence that ends in an error. -/
theorem isErroredSequence_danglingOperand (lhs : Option Expr) :
    ∀ e ∈ (danglingOperand lhs).1, isErroredSequence e = true := by
  intro e he
  unfold danglingOperand at he
  split at he
  · split at he
    · rw [← Option.some.inj he]
      assumption
    · exact absurd he (Option.not_mem_none e)
  · exact absurd he (Option.not_mem_none e)

/-- Behind errors that are alike, alike expressions go into sequences that are alike. -/
theorem alike_appendAfterErrors {errors errors' : Option Expr} (h : AlikeIfAny errors errors')
    (hs : ∀ e ∈ errors, isErroredSequence e = true) {e f : Expr} (he : Alike e f) :
    Alike (appendAfterErrors errors e) (appendAfterErrors errors' f) := by
  cases h with
  | none => exact he
  | @some before before' hb =>
    have hs := hs before rfl
    have hs' : isErroredSequence before' = true := isErroredSequence_eq hb ▸ hs
    have hpush : ∀ {e : Expr}, isErroredSequence e = true → ∀ x : Expr,
        (appendAfterErrors (some e) x).unsourced =
          appendAfterErrors (some e.unsourced) x.unsourced := by
      intro e hs x
      cases e with
      | apply head operands =>
        rw [appendAfterErrors, head_of_isErroredSequence hs,
          unsourced_apply_unquoting unquoting_sequence,
          unsourced_apply_unquoting unquoting_sequence, appendAfterErrors, List.map_append,
          List.map_singleton]
      | _ =>
        simp only [appendAfterErrors, unsourced_sequence, unsourced, List.map_cons, List.map_nil]
    rw [Alike, hpush hs, hpush hs', show before.unsourced = _ from hb, show e.unsourced = _ from he]

end Parser
end MathMarkup
