import MathMarkup.Proofs.StandardLexicon
import MathMarkup.Proofs.Templates

/-!
# Connectives between operands

A conjunction or a disjunction should be its operands with the connective between each two
neighbours. The routine takes an operand for the first one if nothing has been written yet, so
operands at the start that are rendered as nothing are left out, and the connectives behind them
with them. `Connective.run_render` says so for all options and for all operands, whatever
they are rendered as, and that it makes a difference exactly if the first one of several operands is
rendered as nothing.

Operands may report warnings, so what is said here of the routine is what it does
(`Renderer.Performs`) and not only what it ends with.
-/

namespace MathMarkup

namespace Renderer

/-! ## Operands in their places -/

/-- The operands of a connective at some precedence: the first one may bind as loosely as the
connective, the others must bind tighter. -/
def wrapOperands (r : Renderer) (p : Precedence) (operands : List Expr) (level : Nat) :
    Rendering (List String) :=
  match operands with
  | [] => pure []
  | first :: rest => do
    let first ← r.wrap r.render first (some p) level
    let rest ← rest.mapM fun o => r.wrap r.render o (some p.tighter) level
    return first :: rest

theorem length_mapM {α β : Type} (f : α → Rendering β) (xs : List α) (reported : List Warning) :
    ((xs.mapM f).run reported).1.length = xs.length := by
  induction xs generalizing reported with
  | nil => rfl
  | cons x xs ih =>
    rw [List.mapM_cons]
    exact congrArg (· + 1) (ih ((f x).run reported).2)

theorem length_wrapOperands (r : Renderer) (p : Precedence) (operands : List Expr) (level : Nat)
    (reported : List Warning) :
    ((r.wrapOperands p operands level).run reported).1.length = operands.length := by
  cases operands with
  | nil => rfl
  | cons first rest => exact congrArg (· + 1) (length_mapM _ rest _)

end Renderer

/-! ## Connected operands -/

/-- Operands with a connective between each two neighbours. -/
def connected (connective : String) (operands : List String) : String :=
  join (operands.intersperse connective)

/-- Writes a connective and an operand. -/
def connect (connective written operand : String) : String :=
  append (append written connective) operand

theorem connected_cons (connective first : String) (rest : List String) :
    connected connective (first :: rest) = rest.foldl (connect connective) first := by
  have hintersperse : (first :: rest).intersperse connective =
      first :: rest.flatMap fun operand => [connective, operand] := by
    induction rest generalizing first with
    | nil => rfl
    | cons second rest ih =>
      rw [List.intersperse_cons_cons, ih]
      rfl
  rw [connected, hintersperse]
  show (rest.flatMap _).foldl append (append "" first) = _
  rw [empty_append, List.foldl_flatMap]
  rfl

theorem count_connected {c : Char} (hc : c ≠ ' ') (connective : String) (operands : List String) :
    (connected connective operands).toList.count c =
      (operands.flatMap (·.toList)).count c +
        (operands.length - 1) * connective.toList.count c := by
  cases operands with
  | nil => exact (Nat.zero_mul _).symm.trans (Nat.zero_add _).symm
  | cons first rest =>
    rw [connected_cons, List.flatMap_cons, List.count_append, List.length_cons, Nat.add_sub_cancel]
    induction rest generalizing first with
    | nil => simp
    | cons second rest ih =>
      rw [List.foldl_cons, ih, connect, count_append hc, count_append hc, List.flatMap_cons,
        List.count_append, List.length_cons, Nat.add_one_mul]
      omega

theorem flatMap_dropWhile_isEmpty (operands : List String) :
    (operands.dropWhile (·.isEmpty)).flatMap (·.toList) = operands.flatMap (·.toList) := by
  induction operands with
  | nil => rfl
  | cons operand operands ih =>
    by_cases h : operand = ""
    · subst h
      exact ih
    · rw [List.dropWhile_cons_of_neg (by simpa using h)]

/-- Leaving out empty operands at the start makes a difference if there are others. -/
theorem connected_dropWhile_iff {c : Char} (hc : c ≠ ' ') {connective : String}
    (hmem : c ∈ connective.toList) (operands : List String) :
    connected connective (operands.dropWhile (·.isEmpty)) = connected connective operands ↔
      operands.length ≤ 1 ∨ operands.head? ≠ some "" := by
  match operands with
  | [] => exact iff_of_true rfl (Or.inl (Nat.zero_le 1))
  | first :: rest =>
    by_cases hfirst : first = ""
    · subst hfirst
      cases rest with
      | nil => exact iff_of_true rfl (Or.inl le_rfl)
      | cons second rest =>
        -- the operands have all their characters, but at least one connective is missing
        refine iff_of_false (fun heq => ?_) (by simp)
        have hcount := congrArg (·.toList.count c) heq
        have hlength :=
          (List.dropWhile_sublist (p := String.isEmpty) (l := second :: rest)).length_le
        have hle :=
          Nat.mul_le_mul_right (connective.toList.count c) (Nat.sub_le_sub_right hlength 1)
        have hpos := List.count_pos_iff.2 hmem
        simp only [count_connected hc, flatMap_dropWhile_isEmpty, List.length_cons,
          Nat.add_sub_cancel, Nat.add_one_mul] at hcount hle
        rw [show ("" :: second :: rest).dropWhile String.isEmpty =
          (second :: rest).dropWhile String.isEmpty from rfl] at hcount
        omega
    · rw [List.dropWhile_cons_of_neg (by simpa using hfirst)]
      exact iff_of_true rfl (Or.inr fun h => hfirst (Option.some.inj h))

/-! ## The routine -/

open Lexicon.Connectives

theorem joinOperand_of_ne {written : String} (hw : written ≠ "") (connective operand : String) :
    joinOperand connective written operand = connect connective written operand := by
  have hempty : written.isEmpty = false := by
    rw [← Bool.not_eq_true, String.isEmpty_iff]
    exact hw
  rw [joinOperand, hempty, if_neg Bool.false_ne_true]
  show append (append (append "" written) connective) operand = _
  rw [empty_append]
  rfl

/-- Where something is written, every operand has a connective in front of it. -/
theorem foldl_joinOperand_of_ne {written : String} (hw : written ≠ "") (connective : String)
    (operands : List String) :
    operands.foldl (joinOperand connective) written =
      operands.foldl (connect connective) written := by
  induction operands generalizing written with
  | nil => rfl
  | cons operand operands ih =>
    rw [List.foldl_cons, joinOperand_of_ne hw, List.foldl_cons]
    exact ih (append_ne_empty (append_ne_empty hw _) _)

/-- Operands at the start that are empty are left out, with the connectives behind them. -/
theorem foldl_joinOperand (connective : String) (operands : List String) :
    operands.foldl (joinOperand connective) "" =
      connected connective (operands.dropWhile (·.isEmpty)) := by
  induction operands with
  | nil => rfl
  | cons operand operands ih =>
    rw [List.foldl_cons, show joinOperand connective "" operand = operand from rfl]
    by_cases h : operand = ""
    · rw [h, ih]
      rfl
    · rw [foldl_joinOperand_of_ne h, List.dropWhile_cons_of_neg (by simpa using h), connected_cons]

/-- The routine of a connective renders the operands in their places and joins what they are
rendered as. -/
theorem Renderer.performs_renderConnective (r : Renderer) (spellings : Spellings) (p : Precedence)
    (e : Expr) (level : Nat) :
    r.Performs (r.under e) (renderConnective spellings p e level) (do
      let markups ← r.wrapOperands p e.operands (level + 1)
      return markups.foldl (joinOperand (spellings.get (r.options.logicStyle e level))) "") := by
  have hwrap : ∀ o ∈ e.operands, ∀ p : Precedence, r.Performs (r.under e)
      (RenderRoutine.wrap o p (level + 1)) (r.wrap r.render o (some p) (level + 1)) :=
    fun o ho p => performs_wrap ho p (level + 1)
  refine performs_options_bind ?_
  cases hops : e.operands with
  | nil => exact performs_pure _
  | cons first rest =>
    rw [hops, List.forall_mem_cons] at hwrap
    rw [wrapOperands]
    simp only [bind_assoc]
    refine (hwrap.1 p).bind fun first => ?_
    refine (performs_mapM fun o ho => hwrap.2 o ho p.tighter).bind fun rest => ?_
    exact performs_pure _

/-! ## Conjunctions and disjunctions -/

/-- The connectives that collect operands. -/
inductive Connective where
  | and
  | or
  deriving DecidableEq, Repr

namespace Connective

def head : Connective → String
  | .and => "And"
  | .or => "Or"

def spellings : Connective → Spellings
  | .and => andSpellings
  | .or => orSpellings

def precedence : Connective → Precedence
  | .and => andPrecedence
  | .or => orPrecedence

/-- How a connective is written between some operands. -/
def sign (k : Connective) (o : Options) (operands : List Expr) (level : Nat) : String :=
  k.spellings.get (o.logicStyle (.apply k.head operands) level)

/-- No style leaves a connective out or writes spaces only. -/
theorem exists_mem_sign (k : Connective) (o : Options) (operands : List Expr) (level : Nat) :
    ∃ c ∈ (k.sign o operands level).toList, c ≠ ' ' := by
  have hany : ∀ style, (k.spellings.get style).toList.any (· != ' ') = true := by
    intro style
    cases k <;> cases style <;> decide
  obtain ⟨c, hmem, hc⟩ := List.any_eq_true.1 (hany (o.logicStyle (.apply k.head operands) level))
  exact ⟨c, hmem, bne_iff_ne.1 hc⟩

theorem exists_entry (k : Connective) : ∃ entry, Index.standard.byName? k.head = some entry ∧
    entry.render = some (renderConnective k.spellings k.precedence) := by
  obtain ⟨f, hf, hn, hk, hp, hrender⟩ : ∃ f ∈ Lexicon.standard, f.name = some k.head ∧
      f.kind = .infixOp ∧ f.precedence = some k.precedence ∧
      f.render = some (.custom (renderConnective k.spellings k.precedence)) := by
    cases k with
    | and =>
      exact ⟨_, Standard.mem_standard (c := .logic) (List.mem_of_getElem? (i := 1) rfl), rfl, rfl,
        rfl, rfl⟩
    | or =>
      exact ⟨_, Standard.mem_standard (c := .logic) (List.mem_of_getElem? (i := 3) rfl), rfl, rfl,
        rfl, rfl⟩
  obtain ⟨-, hc, -, -⟩ := Standard.clear_infixOp hf hn hk
  have hu := (Index.usable?_operator hc.trigger_ne_nil hp).2.1 hk
  exact ⟨_, Standard.byName?_standard hf hu hn, by simp only [Entry.indexed, hrender]⟩

/-- The operands of a connective are rendered in their places, and the connective stands between
those that are left when empty ones at the start are left out. -/
theorem render_eq (k : Connective) {r : Renderer} (hr : r.index = Index.standard)
    (operands : List Expr) (level : Nat) :
    r.render (.apply k.head operands) level = (do
      let markups ← r.wrapOperands k.precedence operands (level + 1)
      return connected (k.sign r.options operands level) (markups.dropWhile (·.isEmpty))) := by
  obtain ⟨entry, hentry, hrender⟩ := k.exists_entry
  rw [← hr] at hentry
  have hroutine := r.performs_renderConnective k.spellings k.precedence
    (.apply k.head operands) level
  simp only [foldl_joinOperand] at hroutine
  exact Renderer.render_of_performs hentry hrender hroutine

/-- The connective stands between each two neighbours unless the first of several operands is
rendered as nothing. -/
theorem render_eq_connected_iff (k : Connective) {r : Renderer} (hr : r.index = Index.standard)
    (operands : List Expr) (level : Nat) (reported : List Warning) :
    ((r.render (.apply k.head operands) level).run reported).1 =
        connected (k.sign r.options operands level)
          ((r.wrapOperands k.precedence operands (level + 1)).run reported).1 ↔
      operands.length ≤ 1 ∨
        ((r.wrapOperands k.precedence operands (level + 1)).run reported).1.head? ≠ some "" := by
  obtain ⟨c, hmem, hc⟩ := k.exists_mem_sign r.options operands level
  rw [k.render_eq hr, ← r.length_wrapOperands k.precedence operands (level + 1) reported,
    ← connected_dropWhile_iff hc hmem]
  rfl

/-- What a conjunction or a disjunction is rendered as. The connective stands between each two
neighbours, unless the first of several operands is rendered as nothing: then operands and
connectives are missing up to the first operand that is rendered as something. -/
theorem run_render (k : Connective) (o : Options) (canonical : Bool) (operands : List Expr)
    (level : Nat) (reported : List Warning) :
    let r : Renderer := { options := o, index := Index.standard, canonical }
    let sign := k.sign o operands level
    let made := (r.wrapOperands k.precedence operands (level + 1)).run reported
    let rendered := (r.render (.apply k.head operands) level).run reported
    rendered = (connected sign (made.1.dropWhile (·.isEmpty)), made.2) ∧
      (rendered.1 = connected sign made.1 ↔ operands.length ≤ 1 ∨ made.1.head? ≠ some "") := by
  intro r
  have hrender := congrArg (·.run reported) (k.render_eq (r := r) rfl operands level)
  exact ⟨hrender, k.render_eq_connected_iff rfl operands level reported⟩

/-- A number that is none is reported and leaves its place empty. -/
theorem wrap_number {r : Renderer} {text : String} {w : Warning}
    (h : Numeral.render text r.options.number = .error w) (p : Precedence) (level : Nat)
    (reported : List Warning) :
    (r.wrap r.render (.number text) (some p) level).run reported = ("", reported ++ [w]) := by
  have hnumber : r.render (.number text) level = (do Rendering.report w; return "") := by
    rw [Renderer.render_eq]
    show r.number text = _
    unfold Renderer.number
    rw [h]
  unfold Renderer.wrap
  rw [hnumber]
  rfl

/-- So a conjunction may be its second operand alone: there is no connective between `x1`, which is
no number, and `b`. -/
theorem exists_render_not_connected : ¬ ∀ (style : LogicStyle) (k : Connective) (first : Expr)
    (rest : List Expr) (level : Nat),
    let r : Renderer := { options := { logicStyle := .constant style }, index := Index.standard }
    ((r.render (.apply k.head (first :: rest)) level).run []).1 =
      connected (k.spellings.get style)
        ((r.wrapOperands k.precedence (first :: rest) (level + 1)).run []).1 := by
  intro h
  let r : Renderer := { options := { logicStyle := .constant .boolean }, index := Index.standard }
  have hnumber : Numeral.render "x1" r.options.number = .error (.unserializable "number `x1`") := by
    decide +kernel
  have hconnected := h .boolean .and (.number "x1") [.symbol "b"] 0
  refine ((render_eq_connected_iff .and (r := r) rfl _ 0 []).1 hconnected).elim (by decide) ?_
  refine fun hhead => hhead ?_
  show some ((r.wrap r.render (.number "x1") (some andPrecedence) 1).run []).1 = some ""
  rw [wrap_number hnumber]

end Connective

end MathMarkup
