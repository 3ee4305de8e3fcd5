import MathMarkup.Proofs.PlainNames
import MathMarkup.Proofs.StandardBraces
import MathMarkup.Proofs.Tracking

/-!
# What is parsed is rendered with balanced braces

If some markup is parsed without errors and the braces in every head match, then what was parsed is
rendered as balanced markup (`Transcoder.balanced_render_parse`): such an expression is writable,
since its names come from the lexicon or were read off the markup without any backslash.

The braces in a head have to match. A name may have any braces in it, if they are escaped in the
markup, and a function may have any name. A symbol gets its escapes back, but a head without an
entry is put into a text without them (`Transcoder.exists_unbalanced_render_parse`).
-/

namespace MathMarkup

open Lexer

namespace Expr

/-! ## Heads -/

mutual
/-- Whether the braces in every head match. -/
def headsMatch : Expr → Bool
  | .apply head operands => matchedFrom 0 head.toList && allHeadsMatch operands
  | .table entries => allEntryHeadsMatch entries
  | .annotated _ e => e.headsMatch
  | _ => true
/-- Whether the braces in every head in some expressions match. -/
def allHeadsMatch : List Expr → Bool
  | [] => true
  | e :: es => e.headsMatch && allHeadsMatch es
/-- Whether the braces in every head in some entries match. -/
def allEntryHeadsMatch : List (String × Expr) → Bool
  | [] => true
  | (_, e) :: es => e.headsMatch && allEntryHeadsMatch es
end

theorem allHeadsMatch_iff {es : List Expr} :
    allHeadsMatch es = true ↔ ∀ e ∈ es, e.headsMatch = true := by
  induction es with
  | nil => simp [allHeadsMatch]
  | cons e es ih => rw [allHeadsMatch, Bool.and_eq_true, ih, List.forall_mem_cons]

/-- Without errors, and if the braces in heads match, what is made with writable names is
writable. -/
theorem Made.writable {P : String → Prop} (hP : ∀ name, P name → Name.Writable name) {e : Expr}
    (h : e.Made P) (he : e.Sound) (hm : e.headsMatch = true) : e.Writable := by
  induction h with
  | number text => exact .number text
  | string value => exact .string value
  | symbol hname => exact .symbol (hP _ hname)
  | apply hhead _ ih =>
    rw [headsMatch, Bool.and_eq_true, allHeadsMatch_iff] at hm
    obtain ⟨hne, hoperands⟩ := sound_apply_iff.1 he
    exact .apply hne (hP _ hhead) hm.1 fun o ho => ih o ho (hoperands o ho) (hm.2 o ho)

end Expr

/-! ## Names in a parse -/

theorem Lexicon.writable_heads_standard :
    Index.standard.latest.all (fun e => decide (Name.Writable e.head)) = true := by
  decide +kernel

theorem Parser.writable_of_traced {markup name : String}
    (h : Traced Name.Writable (ofTokens (Token.scan markup)).tokens name) : Name.Writable name := by
  cases h with
  | own h =>
    have hown : ∀ head ∈ ownHeads, Name.Writable head := by decide
    exact hown name h
  | known h => exact h
  | read hp hc => exact Or.inl (slashless_of_calls hp hc)

namespace Transcoder

/-- What is parsed without errors, and with matching braces in heads, is rendered as balanced
markup. -/
theorem balanced_render_parse {markup : String} (he : (parse {} markup).1.hasErrors = false)
    (hm : (parse {} markup).1.headsMatch = true) (canonical : Bool) :
    Token.Balanced (Token.scan (render {} (parse {} markup).1 canonical).1) := by
  have hheads : ∀ e ∈ Index.standard.latest, Name.Writable e.head := fun e hmem =>
    of_decide_eq_true (List.all_eq_true.1 Lexicon.writable_heads_standard e hmem)
  have hmade := Parser.named_parseTokens hheads markup
  exact balanced_render (hmade.writable (fun _ => Parser.writable_of_traced) he hm) canonical

/-- A function with braces in its name and a fraction. -/
theorem balanced_render_parse_braces :
    let markup := "\\operatorname\x7ba\\\x7b\\\x7d\x7d(x)+\\frac\x7b1\x7d\x7b2\x7d"
    (parse {} markup).1.hasErrors = false ∧ (parse {} markup).1.headsMatch = true ∧
      (render {} (parse {} markup).1 false).1 =
        "\\operatorname\x7bapply\x7d(\\text\x7ba\x7b\x7d\x7d, x)+\\frac\x7b1\x7d\x7b2\x7d" ∧
      Token.Balanced (Token.scan (render {} (parse {} markup).1 false).1) := by
  intro markup
  obtain ⟨he, hm, hrender⟩ : (parse {} markup).1.hasErrors = false ∧
      (parse {} markup).1.headsMatch = true ∧
      (render {} (parse {} markup).1 false).1 =
        "\\operatorname\x7bapply\x7d(\\text\x7ba\x7b\x7d\x7d, x)+\\frac\x7b1\x7d\x7b2\x7d" := by
    decide +kernel
  exact ⟨he, hm, hrender, balanced_render_parse he hm false⟩

/-- A function with a closing brace in its name is parsed without an error, but rendered with a
brace that closes nothing. -/
theorem exists_unbalanced_render_parse : ¬ ∀ markup : String,
    (parse {} markup).1.hasErrors = false →
      Token.Balanced (Token.scan (render {} (parse {} markup).1 false).1) := by
  intro h
  obtain ⟨he, hrender⟩ :
      (parse {} "\\operatorname\x7ba\\\x7d\x7d(x)").1.hasErrors = false ∧
        (render {} (parse {} "\\operatorname\x7ba\\\x7d\x7d(x)").1 false).1 =
          "\\operatorname\x7bapply\x7d(\\text\x7ba\x7d\x7d, x)" := by
    decide +kernel
  have hbalanced := h "\\operatorname\x7ba\\\x7d\x7d(x)" he
  rw [hrender] at hbalanced
  exact absurd hbalanced (by decide +kernel)

end Transcoder
end MathMarkup
