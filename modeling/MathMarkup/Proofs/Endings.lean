import MathMarkup.Lexicon.Recipe
import MathMarkup.Proofs.Bare

/-!
# How every parse ends

Whatever the tokens and whatever the lexicon, as long as its custom routines never go back behind
where they are called, a parse comes to an end (`Parser.parseAll_completes`): the cursor is at the
end of a buffer that still spells what it spelled at the start, and the depth is back at zero.
Spacing is the one thing that never gets into the buffer.

Input that nests too deeply leaves a syntax error in the result, with one exception. An error is put
behind what was read, and a routine may have annotated that: a sequence that ends in an error takes
up further errors, but not through an annotation, so there the last one is dropped
(`Parser.exists_parse_hides`). The parser annotates nothing by itself, and neither do the routines
that a configuration can name or describe (`Index.Configured`).
-/

namespace MathMarkup

namespace Parser

open Reading

end Parser

/-! ## A routine that annotates -/

/-- A routine in two parts asks for nothing bad if neither part does. -/
theorem Routine.Avoids.bind {Request : Type} {Response : Request → Type} {α β : Type}
    {bad : Request → Prop} {r : Routine Request Response α}
    {f : α → Routine Request Response β} (hr : r.Avoids bad) (hf : ∀ a, (f a).Avoids bad) :
    (r >>= f).Avoids bad := by
  induction r with
  | done a => exact hf a
  | ask q next ih => exact ⟨hr.1, fun x => ih x (hr.2 x)⟩

/-- A routine in two parts ends as its second part does. -/
theorem Routine.endsIn_bind {Request : Type} {Response : Request → Type} {α β : Type}
    {P : β → Prop} (r : Routine Request Response α) {f : α → Routine Request Response β}
    (hf : ∀ a, (f a).EndsIn P) : (r >>= f).EndsIn P := by
  induction r with
  | done a => exact hf a
  | ask q next ih => exact fun x => ih x

namespace ParseRecipe

/-- The routine of a recipe takes step after step and never goes back. -/
theorem neverSeeks (recipe : ParseRecipe) : recipe.handler.NeverSeeks := by
  intro lhs precedence
  have hread : ∀ action, (read recipe.head precedence action).Avoids
      fun q => ∃ i, q = ParseRequest.setIndex i := by
    intro action
    cases action with
    | decline => exact trivial
    | _ => exact ⟨nofun, fun _ => trivial⟩
  suffices h : ∀ steps operands, (readSteps recipe.head precedence operands steps).Avoids
      fun q => ∃ i, q = ParseRequest.setIndex i from h _ _
  intro steps
  induction steps with
  | nil => exact fun _ => trivial
  | cons step steps ih =>
    intro operands
    refine (hread step.action).bind fun more => ?_
    split
    · exact ih _
    · exact ih _
    · exact ih _
    · exact trivial

/-- It ends in an application, if in anything. -/
theorem keepsBare (recipe : ParseRecipe) : recipe.handler.KeepsBare := by
  intro lhs precedence _
  suffices h : ∀ steps operands,
      (readSteps recipe.head precedence operands steps).EndsIn Expr.BareIfAny from h _ _
  intro steps
  induction steps with
  | nil => exact fun _ => Expr.bareIfAny_some (Expr.bare_apply _ _)
  | cons step steps ih =>
    intro operands
    refine Routine.endsIn_bind _ fun more => ?_
    split
    · exact ih _
    · exact ih _
    · exact ih _
    · exact Expr.bareIfAny_none

end ParseRecipe

namespace Index

/-- A lexicon as a configuration can give it: every routine is one of the standard lexicon or is
made from a recipe. -/
def Configured (lexicon : List Entry) : Prop :=
  ∀ handler ∈ lexicon.filterMap Entry.routine?,
    handler ∈ Lexicon.standard.filterMap Entry.routine? ∨
      ∃ recipe : ParseRecipe, handler = recipe.handler

/-- The routines of a configured lexicon never go back. -/
theorem Configured.neverRetreats {lexicon : List Entry} (h : Configured lexicon) :
    (ofEntries lexicon).1.NeverRetreats := by
  refine neverRetreats_of_neverSeeks (arranged_ofEntries _) fun e he handler hh => ?_
  rcases h handler (routine_of_mem_latest he hh) with hs | ⟨recipe, rfl⟩
  · exact neverSeeks_standard handler hs
  · exact recipe.neverSeeks

/-- The routines of a configured lexicon never annotate. -/
theorem Configured.keepsBare {lexicon : List Entry} (h : Configured lexicon) :
    (ofEntries lexicon).1.KeepsBare := by
  intro e he handler hh
  rcases h handler (routine_of_mem_latest he hh) with hs | ⟨recipe, rfl⟩
  · exact Parser.keepsBare_standard handler hs
  · exact recipe.keepsBare

end Index

/-- With a configured lexicon, input that nests too deeply always leaves a syntax error in the
result. -/
theorem Parser.contains_syntaxError_of_configured {lexicon : List Entry}
    (h : Index.Configured lexicon) (tokens : List Token) :
    let result := parseAll (Index.ofEntries lexicon).1 (ofTokens tokens)
    result.2.tooDeep = true →
      ∃ arg markup, result.1.Contains (Expr.error .syntaxError arg markup) :=
  fun hdeep => contains_syntaxError (Index.arranged_ofEntries lexicon) h.keepsBare hdeep

end MathMarkup
