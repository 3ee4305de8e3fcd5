import Mathlib.Data.List.Infix
import MathMarkup.Proofs.BalancedRendering
import MathMarkup.Proofs.StandardScripts

/-!
# Braces in the standard lexicon

What the entries of the standard lexicon put into markup leaves the open braces as they are
(`Lexicon.keepsBraces_standard`). For templates and names of environments this is evaluated. For
each render routine there is a lemma, of which the one for errors is special: an error node is
rendered as the markup that it covers, but only where it has operands.
-/

namespace MathMarkup

open Lexer Renderer

namespace Lexicon

namespace Structure

/-- A sequence keeps braces, as commas are neutral. -/
theorem keepsBraces_renderSequence :
    RenderHandler.KeepsBraces (some "Sequence") renderSequence := by
  intro r ho e node he _ h level
  refine makes_bind (makes_mapM fun o hmem => makes_wrap ho h (he.parts o hmem) _ _) ?_
  exact fun _ hoperands => makes_pure (neutral_commas hoperands)

/-- A delimiter keeps braces, as the delimiters are written in pairs. -/
theorem keepsBraces_renderDelimiter :
    RenderHandler.KeepsBraces (some "Delimiter") renderDelimiter := by
  intro r ho e node he _ h level
  refine makes_options_bind ho ?_
  refine makes_bind (makes_operands h he.parts level) fun _ hoperands => ?_
  exact makes_pure (neutral_parens hoperands)

/-- A subscript keeps braces: the index is put between braces. -/
theorem keepsBraces_renderSubscript :
    RenderHandler.KeepsBraces (some "Subscript") renderSubscript := by
  intro r ho e node he _ h level
  have hscript : ∀ {script : RenderRoutine String}, Makes r node Neutral script →
      ∀ base : String, Neutral base → Makes r node Neutral
        (do let sub ← script; return base ++ "_\x7b" ++ sub ++ "\x7d") :=
    fun hs _ hbase => makes_bind hs fun _ hsub => makes_pure
      (neutral_behind hbase (nests_of_depthAfter (by decide)) (by decide) (by decide) (by decide)
        hsub)
  unfold renderSubscript
  cases hsub : e.operand? 2 with
  | none =>
    have hscript := hscript (makes_missing ho)
    cases hbase : e.operand? 1 with
    | none => exact makes_bind (makes_missing ho) hscript
    | some base => exact makes_bind (makes_wrapBase ho h (he.operand? hbase) _ _) hscript
  | some sub =>
    have hscript := hscript (makes_render h (he.operand? hsub) (level + 1))
    cases hbase : e.operand? 1 with
    | none => exact makes_bind (makes_missing ho) hscript
    | some base => exact makes_bind (makes_wrapBase ho h (he.operand? hbase) _ _) hscript

/-- Without operands there is no markup that the error covers. -/
theorem keepsBraces_renderError : RenderHandler.KeepsBraces (some "Error") renderError := by
  intro r ho e node he hn h level
  have hoperands := hn rfl
  have hcode : (e.operand? 1).bind Expr.string? = none := by
    rw [Expr.operand?, hoperands]
    rfl
  have hmarkup : errorMarkup? e = none := by
    unfold errorMarkup?
    rw [hoperands]
    rfl
  unfold renderError
  rw [hcode, hmarkup, if_neg (by decide)]
  exact makes_missing ho

end Structure

namespace Arithmetic

theorem neutral_plus {left right : String} (hl : Neutral left) (hr : Neutral right) :
    Neutral (left ++ "+" ++ right) :=
  (hl.before (nests_of_depthAfter (by decide)) (by decide)).after hr
    (endsWithControlWord_concat (by decide) (by decide) left)

/-- A sum keeps braces in every style of signs. -/
theorem keepsBraces_renderAdd : RenderHandler.KeepsBraces (some "Add") renderAdd := by
  intro r ho e node he _ h level
  refine makes_options_bind ho ?_
  have hparts := he.parts
  cases hops : e.operands with
  | nil => exact makes_pure (nests_of_depthAfter (by decide))
  | cons first rest =>
    rw [hops, List.forall_mem_cons] at hparts
    refine makes_bind (makes_wrap ho h hparts.1 _ _) fun start hs => ?_
    refine makes_bind (makes_foldlM (Q := fun acc : String × Expr => Neutral acc.1)
      (fun acc hacc op hmem => ?_) hs) fun _ hsum => makes_pure hsum
    exact makes_bind (makes_wrap ho h (hparts.2 op hmem) _ _) fun rhs hr =>
      makes_pure (neutral_plus hacc hr)

/-- A product keeps braces. -/
theorem keepsBraces_renderMultiply :
    RenderHandler.KeepsBraces (some "Multiply") renderMultiply := by
  intro r ho e node he _ h level
  refine makes_options_bind ho ?_
  have hparts := he.parts
  cases hops : e.operands with
  | nil => exact makes_pure (nests_of_depthAfter (by decide))
  | cons first rest =>
    rw [hops, List.forall_mem_cons] at hparts
    refine makes_bind (makes_wrap ho h hparts.1 _ _) fun start hs => ?_
    have hsign : Neutral "\\times" := nests_of_depthAfter (by decide)
    refine makes_bind (makes_foldlM (Q := fun acc : String × Expr => Neutral acc.1)
      (fun acc hacc op hmem => ?_) hs) fun _ hproduct => makes_pure hproduct
    refine makes_bind (makes_wrap ho h (hparts.2 op hmem) _ _) fun rhs hr => makes_pure ?_
    refine neutral_join (List.forall_mem_cons.2 ⟨hacc, List.forall_mem_cons.2 ⟨hsign, ?_⟩⟩)
    exact List.forall_mem_singleton.2 hr

/-- A quotient keeps braces, as a fraction or with a solidus. -/
theorem keepsBraces_renderDivide : RenderHandler.KeepsBraces (some "Divide") renderDivide := by
  intro r ho e node he _ h level
  unfold renderDivide
  have hparts := he.parts
  split
  next numerator denominator hops =>
    rw [hops, List.forall_mem_cons, List.forall_mem_singleton] at hparts
    refine makes_options_bind ho ?_
    refine makes_bind (makes_render h hparts.1 _) fun numerator hn => ?_
    refine makes_bind (makes_render h hparts.2 _) fun denominator hd => makes_pure ?_
    show Neutral (Template.fill "\\frac\x7b#1\x7d\x7b#2\x7d" [numerator, denominator])
    rw [Standard.fill_fraction, ← String.append_assoc]
    exact neutral_command (neutral_command (nests_of_depthAfter (by decide)) hn) hd
  next => exact makes_throw _

variable {r : Renderer} {whole : Expr} {node : RenderNode}

/-- A radical closes the braces around its radicand. -/
theorem makes_renderRadical (h : Serves whole node) {radicand : Expr}
    (hr : whole.WritablePart radicand) {index : Option Expr}
    (hi : ∀ i ∈ index, whole.WritablePart i) (level : Nat) :
    Makes r node Neutral (renderRadical radicand index level) := by
  refine makes_bind (makes_render h hr _) fun radicand hr => ?_
  cases index with
  | none => exact makes_pure (neutral_around (nests_of_depthAfter (by decide)) (by decide) hr)
  | some index =>
    refine makes_bind (makes_render h (hi index rfl) _) fun index hi => makes_pure ?_
    have hroot : Neutral ("\\sqrt[" ++ index) :=
      Nests.after (nests_of_depthAfter (by decide)) hi (by decide)
    exact neutral_behind hroot (nests_of_depthAfter (by decide)) (by decide) (by decide) (by decide)
      hr

/-- A script closes the braces around its exponent. -/
theorem makes_renderScript (ho : r.options = {}) (h : Serves whole node) {base exponent : Expr}
    (hb : whole.WritablePart base) (hx : whole.WritablePart exponent) (level : Nat) :
    Makes r node Neutral (renderScript base exponent level) := by
  refine makes_bind (makes_wrapBase ho h hb _ _) fun base hb => ?_
  refine makes_bind (makes_render h hx _) fun exponent hx => makes_pure ?_
  exact neutral_behind hb (nests_of_depthAfter (by decide)) (by decide) (by decide) (by decide) hx

/-- Powers are written as scripts. -/
theorem keepsBraces_renderPower : RenderHandler.KeepsBraces (some "Power") renderPower := by
  intro r ho e node he _ h level
  unfold renderPower
  have hparts := he.parts
  split
  next base exponent hops =>
    rw [hops, List.forall_mem_cons, List.forall_mem_singleton] at hparts
    refine makes_options_bind ho ?_
    exact makes_renderScript ho h hparts.1 hparts.2 level
  next => exact makes_throw _

theorem keepsBraces_renderSquareRoot :
    RenderHandler.KeepsBraces (some "Sqrt") renderSquareRoot := by
  intro r ho e node he _ h level
  unfold renderSquareRoot
  have hparts := he.parts
  split
  next radicand hops =>
    rw [hops, List.forall_mem_singleton] at hparts
    refine makes_options_bind ho ?_
    exact makes_renderRadical h hparts (fun i hi => absurd hi (Option.not_mem_none i)) level
  next => exact makes_throw _

theorem keepsBraces_renderIndexedRoot :
    RenderHandler.KeepsBraces (some "Root") renderIndexedRoot := by
  intro r ho e node he _ h level
  unfold renderIndexedRoot
  have hparts := he.parts
  split
  next radicand index hops =>
    rw [hops, List.forall_mem_cons, List.forall_mem_singleton] at hparts
    refine makes_options_bind ho ?_
    exact makes_renderRadical h hparts.1 (fun i hi => Option.some.inj hi ▸ hparts.2) level
  next => exact makes_throw _

end Arithmetic

namespace Connectives

/-- Operands with a connective between them. -/
theorem neutral_joinOperands {connective : String} (hc : Neutral connective)
    {operands : List String} (h : ∀ s ∈ operands, Neutral s) :
    Neutral (operands.foldl (joinOperand connective) "") := by
  refine Name.neutral_foldl neutral_empty fun rendered operand hmem hrendered => ?_
  unfold joinOperand
  split
  · exact h operand hmem
  · refine neutral_join (List.forall_mem_cons.2 ⟨hrendered, List.forall_mem_cons.2 ⟨hc, ?_⟩⟩)
    exact List.forall_mem_singleton.2 (h operand hmem)

/-- A connective keeps braces if its spelling does. -/
theorem keepsBraces_renderConnective (name : Option String) {spellings : Spellings}
    (hs : Neutral spellings.boolean) (p : Precedence) :
    RenderHandler.KeepsBraces name (renderConnective spellings p) := by
  intro r ho e node he _ h level
  refine makes_options_bind ho ?_
  have hparts := he.parts
  cases hops : e.operands with
  | nil => exact makes_pure neutral_empty
  | cons first rest =>
    rw [hops, List.forall_mem_cons] at hparts
    refine makes_bind (makes_wrap ho h hparts.1 _ _) fun first hfirst => ?_
    refine makes_bind (makes_mapM fun o hmem => makes_wrap ho h (hparts.2 o hmem) _ _)
      fun rest hrest => makes_pure ?_
    exact neutral_joinOperands hs (List.forall_mem_cons.2 ⟨hfirst, hrest⟩)

theorem keepsBraces_renderNot : RenderHandler.KeepsBraces (some "Not") renderNot := by
  intro r ho e node he _ h level
  refine makes_options_bind ho ?_
  have hparts := he.parts
  have hsign : Neutral "\\lnot" := nests_of_depthAfter (by decide)
  split
  next operand hops =>
    rw [hops, List.forall_mem_singleton] at hparts
    refine makes_bind (makes_wrap ho h hparts _ _) fun operand hoperand => makes_pure ?_
    exact neutral_join (List.forall_mem_cons.2 ⟨hsign, List.forall_mem_singleton.2 hoperand⟩)
  next => exact makes_throw _

end Connectives

namespace Sets

/-- A set of numbers keeps braces if its letter does. -/
theorem keepsBraces_renderNumericSet (name : Option String) {s : NumericSet}
    (hs : Neutral s.compact) : RenderHandler.KeepsBraces name (renderNumericSet s) := by
  intro r ho e node he _ h level
  refine makes_options_bind ho ?_
  exact makes_pure hs

end Sets

/-! ## All entries -/

/-- The name of an entry that has a render routine, and the routine. -/
def namedRoutine? (e : Entry) : Option (Option String × RenderHandler) :=
  e.renderRoutine?.map (e.name, ·)

open Structure Arithmetic Connectives Sets in
/-- The routines that render among the standard entries, with the names of these. -/
theorem namedRoutines_standard : standard.filterMap namedRoutine? = [
    (some "Sequence", renderSequence), (some "Delimiter", renderDelimiter),
    (some "Subscript", renderSubscript), (some "Error", renderError), (some "Add", renderAdd),
    (some "Multiply", renderMultiply), (some "Divide", renderDivide), (some "Power", renderPower),
    (some "Sqrt", renderSquareRoot), (some "Root", renderIndexedRoot),
    (some "And", renderConnective andSpellings andPrecedence),
    (some "Or", renderConnective orSpellings orPrecedence), (some "Not", renderNot)] ++
    numericSets.map fun s => (some s.name, renderNumericSet s) := rfl

/-- What can be evaluated about an entry: its template and the name of an environment. -/
def checkBraces (e : IndexedEntry) : Bool :=
  depthAfter 0 e.template.toList == some 0 &&
    (e.role == .identifier || e.role == .function ||
      e.template.toList.tails.all fun s => depthAfter 0 (s.takeWhile (· != '#')) == some 0) &&
    (e.role != .environment || depthAfter 0 (String.join e.trigger).toList == some 0)

theorem checkBraces_standard : Index.standard.latest.all checkBraces = true := by
  decide +kernel

theorem depthAfter_numericSets :
    (Sets.numericSets.all fun s => depthAfter 0 s.compact.toList == some 0) = true := by
  decide

open Structure Arithmetic Connectives Sets in
/-- Every routine of the standard lexicon keeps braces. -/
theorem keepsBraces_routine {name : Option String} {handler : RenderHandler}
    (h : (name, handler) ∈ standard.filterMap namedRoutine?) : handler.KeepsBraces name := by
  have hall : ∀ named ∈ standard.filterMap namedRoutine?,
      RenderHandler.KeepsBraces named.1 named.2 := by
    rw [namedRoutines_standard, List.forall_mem_append, List.forall_mem_map]
    simp only [List.forall_mem_cons]
    refine ⟨⟨keepsBraces_renderSequence, keepsBraces_renderDelimiter, keepsBraces_renderSubscript,
      keepsBraces_renderError, keepsBraces_renderAdd, keepsBraces_renderMultiply,
      keepsBraces_renderDivide, keepsBraces_renderPower, keepsBraces_renderSquareRoot,
      keepsBraces_renderIndexedRoot, keepsBraces_renderConnective _ ?_ _,
      keepsBraces_renderConnective _ ?_ _, keepsBraces_renderNot, by simp⟩, fun s hs => ?_⟩
    · exact nests_of_depthAfter (by decide)
    · exact nests_of_depthAfter (by decide)
    · have hcompact := List.all_eq_true.1 depthAfter_numericSets s hs
      exact keepsBraces_renderNumericSet _ (nests_of_depthAfter (beq_iff_eq.1 hcompact))
  exact hall _ h

/-- Every entry of the standard lexicon keeps braces. -/
theorem keepsBraces_standard : ∀ e ∈ Index.standard.latest, e.KeepsBraces := by
  intro e he
  -- the table was checked entry by entry; what is left is to say what a check means
  have hcheck := List.all_eq_true.1 checkBraces_standard e he
  simp only [checkBraces, Bool.and_eq_true, Bool.or_eq_true, beq_iff_eq, bne_iff_ne,
    List.all_eq_true, List.mem_tails] at hcheck
  obtain ⟨⟨htemplate, hfillable⟩, henvironment⟩ := hcheck
  refine ⟨nests_of_depthAfter htemplate, fun hi hf s hs => ?_, fun hrole => ?_,
    fun handler hrender => ?_⟩
  · have hs := hfillable.resolve_left (not_or.2 ⟨hi, hf⟩) s hs
    refine nests_of_depthAfter ?_
    rw [String.toList_ofList]
    exact hs
  · exact nests_of_depthAfter (henvironment.resolve_left (not_not.2 hrole))
  · refine keepsBraces_routine (List.mem_filterMap.2 ?_)
    rw [Index.standard, Index.latest_ofEntries, List.mem_reverse, List.mem_filterMap] at he
    obtain ⟨entry, hmem, husable⟩ := he
    refine ⟨entry, hmem, ?_⟩
    obtain ⟨role, -, rfl⟩ := Index.usable?_eq_some_iff.1 husable
    exact Option.map_eq_some_iff.2 ⟨handler, hrender, rfl⟩

end Lexicon

/-- With the standard lexicon and the default options, the rendering of a writable expression is
balanced. -/
theorem Transcoder.balanced_render {e : Expr} (he : e.Writable) (canonical : Bool) :
    Token.Balanced (Token.scan (Transcoder.render {} e canonical).1) := by
  have hkeeps : (Transcoder.renderer {} canonical).KeepsBraces :=
    ⟨rfl, (Index.arranged_ofEntries _).names, Lexicon.keepsBraces_standard⟩
  exact (Renderer.neutral_render hkeeps he 0 []).balanced

end MathMarkup
