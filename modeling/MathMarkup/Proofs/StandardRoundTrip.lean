import MathMarkup.Proofs.StandardScripts
import MathMarkup.Transcoder

/-!
# The round trip of standard notation

An expression in the forms of standard notation is parsed back from its rendering, unless a
factorial comes right before an equals sign in it (`parse_render_iff`). Arithmetic expressions have
no factorials, so they always come back (`parse_render_of_arithmetic`). The one other way out is the
limit on nesting.
-/

namespace MathMarkup
namespace Standard

open MathMarkup.Lexer MathMarkup.Parser MathMarkup.Reading

/-! ## The forms -/

/-- The heads that collect their operands. -/
def collectors : List String := ["Add", "Multiply", "And", "Or"]

/-- The forms of standard notation: integers, names, operators and functions with entries of their
own, sums and the like, and what is written with braces. A head that collects its operands has two
or more, and the first of them is not the same again. -/
inductive Form : Expr → Prop where
  | integer {ds : List Char} (hds : Numeral.Canonical ds) : Form (.number (String.ofList ds))
  | minusOne : Form (.number "-1")
  | letter {c : Char} (hc : c.isAlpha = true) : Form (.symbol (String.ofList [c]))
  | word {cs : List Char} (hcs : Unnamed cs) (hlen : 1 < cs.length) : Form (.symbol (String.ofList cs))
  | between {f : Entry} {head : String} {a b : Expr} (hf : f ∈ Lexicon.standard)
      (hn : f.name = some head) (hk : f.kind = .infixOp) (hparse : f.parse = none)
      (hrender : f.render = none) (ha : Form a) (hb : Form b) : Form (.apply head [a, b])
  | collected {head : String} {a b : Expr} {rest : List Expr} (hhead : head ∈ collectors)
      (ha : Form a) (hfirst : a.isApply head = false) (hb : Form b) (hrest : ∀ x ∈ rest, Form x) :
      Form (.apply head (a :: b :: rest))
  | negate {a : Expr} (ha : Form a) (hnumber : a.number? = none) : Form (.apply "Negate" [a])
  | power {a b : Expr} (ha : Form a) (hb : Form b) : Form (.apply "Power" [a, b])
  | subscript {a b : Expr} (ha : Form a) (hb : Form b) : Form (.apply "Subscript" [a, b])
  | divide {a b : Expr} (ha : Form a) (hb : Form b) : Form (.apply "Divide" [a, b])
  | function {f : Entry} {head : String} {a : Expr} (hf : f ∈ Lexicon.standard)
      (hn : f.name = some head) (hk : f.kind = .function) (hne : f.trigger ≠ [])
      (hparse : f.parse = none) (hrender : f.render = none) (ha : Form a) : Form (.apply head [a])
  | factorial {a : Expr} (ha : Form a) : Form (.apply "Factorial" [a])

theorem collects_of_mem (canonical : Bool) {head : String} (h : head ∈ collectors) :
    ∃ f p, Collects canonical f head p := by
  simp only [collectors, List.mem_cons, List.not_mem_nil, or_false] at h
  rcases h with rfl | rfl | rfl | rfl
  · obtain ⟨f, hf, -⟩ := collects_add canonical
    exact ⟨f, _, hf⟩
  · obtain ⟨f, hf, -⟩ := collects_multiply canonical
    exact ⟨f, _, hf⟩
  · exact collects_and canonical
  · exact collects_or canonical

/-- Every form is read back, from what its operands are read back from. -/
theorem rereadable_of_form (canonical : Bool) {e : Expr} (h : Form e) : Rereadable canonical e := by
  induction h with
  | integer hds => exact rereadable_integer canonical hds
  | minusOne => exact rereadable_minusOne
  | letter hc => exact rereadable_letter canonical hc
  | word hcs hlen => exact rereadable_word canonical hcs hlen
  | between hf hn hk hparse hrender _ _ iha ihb =>
    exact rereadable_infix hf hn hk hparse hrender iha ihb
  | collected hhead _ hfirst _ _ iha ihb ihrest =>
    obtain ⟨f, p, hc⟩ := collects_of_mem canonical hhead
    exact hc.rereadable iha hfirst ihb ihrest
  | negate _ hnumber iha => exact rereadable_negate iha hnumber
  | power _ _ iha ihb => exact rereadable_power iha ihb
  | subscript _ _ iha ihb => exact rereadable_subscript iha ihb
  | divide _ _ iha ihb => exact rereadable_divide iha ihb
  | function hf hn hk hne hparse hrender _ iha =>
    exact rereadable_function hf hn hk hne hparse hrender iha
  | factorial _ iha => exact rereadable_factorial iha

/-! ## Parsing what is rendered -/

/-- What the parser makes of some markup with the standard lexicon, and the state it ends in. -/
def reading (markup : String) : Expr × Parser :=
  (parseAll Index.standard).run (ofTokens (Token.scan markup))

theorem parse_eq (markup : String) : (({} : Transcoder).parse markup).1 = (reading markup).1 := by
  have hplain : ∀ t : Transcoder, t.options.preserveLatex = false →
      (t.parse markup).1 = (parseTokens t.index (Token.scan markup)).1 := by
    intro t ht
    unfold Transcoder.parse
    dsimp only
    rw [ht, if_neg Bool.false_ne_true]
  exact hplain {} rfl

/-- What a form is read back as from the tokens of its rendering. -/
theorem exists_rereads {e : Expr} (he : Form e) (canonical : Bool) :
    let t : Transcoder := {}
    let markup := (t.render e canonical).1
    (reading markup).2.tooDeep = false → Rereads e (t.parse markup).1 (Token.scan markup) := by
  intro t markup hdeep
  obtain ⟨e', s, ts, own, edge, avoid, h⟩ := rereadable_of_form canonical he
  have hmarkup : markup = s := by
    show ((renderer canonical).render e 0 []).1 = s
    rw [h.renders 0]
    rfl
  rw [hmarkup] at hdeep ⊢
  rw [parse_eq, h.legible.scans.scan_eq]
  rcases h.legible.parse arranged with hd | hparse
  · exact absurd (hd.symm.trans hdeep) (by decide)
  · rw [show (reading s).1 = e' from hparse]
    exact h.toRereads

/-- A form is parsed back from its rendering if no factorial sign comes right before an equals sign
there, and otherwise it is not. -/
theorem parse_render_iff {e : Expr} (he : Form e) (canonical : Bool) :
    let t : Transcoder := {}
    let markup := (t.render e canonical).1
    (reading markup).2.tooDeep = false →
      ((t.parse markup).1 = e ↔ ¬ Fused (Token.scan markup)) :=
  fun hdeep => (exists_rereads he canonical hdeep).same

/-- An equation with a factorial on the left. -/
def factorialEquation : Expr :=
  .apply "Equal" [.apply "Factorial" [.symbol "a"], .symbol "b"]

/-- Its rendering is parsed as an inequation. -/
theorem parse_render_factorialEquation :
    Form factorialEquation ∧
    let t : Transcoder := {}
    let markup := (t.render factorialEquation true).1
    markup = "a!=b" ∧ (reading markup).2.tooDeep = false ∧ Fused (Token.scan markup) ∧
      (t.parse markup).1 ≠ factorialEquation := by
  have hform : Form factorialEquation :=
    .between (mem_standard (c := .inequalities) (List.mem_of_getElem? (i := 0) rfl)) rfl rfl rfl rfl
      (.factorial (.letter (c := 'a') rfl)) (.letter (c := 'b') rfl)
  obtain ⟨hmarkup, hdeep, hfused⟩ :
      (({} : Transcoder).render factorialEquation true).1 = "a!=b" ∧
      (reading "a!=b").2.tooDeep = false ∧ ["!", "="] <:+: Token.raws (Token.scan "a!=b") := by
    decide +kernel
  rw [← hmarkup] at hdeep hfused
  exact ⟨hform, hmarkup, hdeep, hfused, fun h => (parse_render_iff hform true hdeep).1 h hfused⟩

/-- So not everything that is parsed without an error comes back: braces keep the two signs apart,
and the renderer leaves them out. -/
theorem exists_parse_ne_parse_render : ¬ ∀ markup : String,
    let t : Transcoder := {}
    let e := (t.parse markup).1
    e.hasErrors = false → (reading markup).2.tooDeep = false →
      (t.parse (t.render e true).1).1 = e := by
  intro h
  obtain ⟨hparse, hdeep, hback⟩ :
      (({} : Transcoder).parse "\x7ba!\x7d=b").1 = factorialEquation ∧
      (reading "\x7ba!\x7d=b").2.tooDeep = false ∧
      (({} : Transcoder).parse (({} : Transcoder).render factorialEquation true).1).1 ≠
        factorialEquation := by
    decide +kernel
  have hsame := h "\x7ba!\x7d=b"
  simp only [hparse] at hsame
  exact hback (hsame (by decide) hdeep)

/-! ## Arithmetic -/

/-- Arithmetic expressions: integers and names under sums, products, disjunctions, differences,
quotients, equations, inequations, powers, subscripts, negations and sines. An exponent may also be
minus one. -/
inductive Arithmetic : Expr → Prop where
  | integer {ds : List Char} (hds : Numeral.Canonical ds) : Arithmetic (.number (String.ofList ds))
  | letter {c : Char} (hc : c.isAlpha = true) : Arithmetic (.symbol (String.ofList [c]))
  | word {cs : List Char} (hcs : Unnamed cs) (hlen : 1 < cs.length) :
      Arithmetic (.symbol (String.ofList cs))
  | collected {head : String} {a b : Expr} {rest : List Expr}
      (hhead : head ∈ ["Add", "Multiply", "Or"]) (ha : Arithmetic a)
      (hfirst : a.isApply head = false) (hb : Arithmetic b) (hrest : ∀ x ∈ rest, Arithmetic x) :
      Arithmetic (.apply head (a :: b :: rest))
  | binary {head : String} {a b : Expr}
      (hhead : head ∈ ["Subtract", "Divide", "Equal", "Less", "Power", "Subscript"])
      (ha : Arithmetic a) (hb : Arithmetic b) : Arithmetic (.apply head [a, b])
  | inverse {a : Expr} (ha : Arithmetic a) : Arithmetic (.apply "Power" [a, .number "-1"])
  | negate {a : Expr} (ha : Arithmetic a) (hnumber : a.number? = none) :
      Arithmetic (.apply "Negate" [a])
  | sin {a : Expr} (ha : Arithmetic a) : Arithmetic (.apply "Sin" [a])

/-- The comparisons and the difference have entries without routines. -/
theorem form_binary {head : String} {a b : Expr} (h : head ∈ ["Subtract", "Equal", "Less"])
    (ha : Form a) (hb : Form b) : Form (.apply head [a, b]) := by
  simp only [List.mem_cons, List.not_mem_nil, or_false] at h
  rcases h with rfl | rfl | rfl
  · exact .between (mem_standard (c := .arithmetic) (List.mem_of_getElem? (i := 1) rfl)) rfl rfl rfl
      rfl ha hb
  · exact .between (mem_standard (c := .inequalities) (List.mem_of_getElem? (i := 0) rfl)) rfl rfl
      rfl rfl ha hb
  · exact .between (mem_standard (c := .inequalities) (List.mem_of_getElem? (i := 8) rfl)) rfl rfl
      rfl rfl ha hb

theorem Arithmetic.form {e : Expr} (h : Arithmetic e) : Form e := by
  -- on the expression: each way to build it is one of the forms
  induction h with
  | integer hds => exact .integer hds
  | letter hc => exact .letter hc
  | word hcs hlen => exact .word hcs hlen
  | collected hhead _ hfirst _ _ iha ihb ihrest =>
    refine .collected ?_ iha hfirst ihb ihrest
    exact (show ∀ head ∈ ["Add", "Multiply", "Or"], head ∈ collectors by decide) _ hhead
  | binary hhead _ _ iha ihb =>
    simp only [List.mem_cons, List.not_mem_nil, or_false] at hhead
    rcases hhead with rfl | rfl | rfl | rfl | rfl | rfl
    · exact form_binary (by decide) iha ihb
    · exact .divide iha ihb
    · exact form_binary (by decide) iha ihb
    · exact form_binary (by decide) iha ihb
    · exact .power iha ihb
    · exact .subscript iha ihb
  | inverse _ iha => exact .power iha .minusOne
  | negate _ hnumber iha => exact .negate iha hnumber
  | sin _ iha =>
    exact .function (mem_standard (c := .functions) (List.mem_of_getElem? (i := 0) rfl)) rfl rfl
      (by decide +kernel) rfl rfl iha

/-! ## No factorials -/

theorem contains_operand {head : String} {operands : List Expr} {a : Expr}
    (h : (Expr.apply head operands).Contains (.apply "Factorial" [a])) (hne : head ≠ "Factorial") :
    ∃ o ∈ operands, o.Contains (.apply "Factorial" [a]) := by
  cases h with
  | here => exact absurd rfl hne
  | operand ho h => exact ⟨_, ho, h⟩

theorem Arithmetic.not_contains {e : Expr} (h : Arithmetic e) (x : Expr) :
    ¬ e.Contains (.apply "Factorial" [x]) := by
  -- on the expression: no way to build it applies that head, and the operands have none inside
  induction h with
  | integer | letter | word => exact fun hc => nomatch hc
  | collected hhead _ _ _ _ iha ihb ihrest =>
    intro hc
    obtain ⟨o, ho, ho'⟩ := contains_operand hc (by rintro rfl; exact absurd hhead (by decide))
    rcases List.mem_cons.1 ho with rfl | ho
    · exact iha ho'
    rcases List.mem_cons.1 ho with rfl | ho
    · exact ihb ho'
    · exact ihrest o ho ho'
  | binary hhead _ _ iha ihb =>
    intro hc
    obtain ⟨o, ho, ho'⟩ := contains_operand hc (by rintro rfl; exact absurd hhead (by decide))
    rcases List.mem_cons.1 ho with rfl | ho
    · exact iha ho'
    · exact ihb (List.mem_singleton.1 ho ▸ ho')
  | inverse _ iha =>
    intro hc
    obtain ⟨o, ho, ho'⟩ := contains_operand hc (by decide)
    rcases List.mem_cons.1 ho with rfl | ho
    · exact iha ho'
    · rw [List.mem_singleton.1 ho] at ho'
      exact nomatch ho'
  | negate _ _ iha | sin _ iha =>
    intro hc
    obtain ⟨o, ho, ho'⟩ := contains_operand hc (by decide)
    exact iha (List.mem_singleton.1 ho ▸ ho')

/-- Arithmetic expressions are parsed back from their renderings, unless they nest too deeply. -/
theorem parse_render_of_arithmetic {e : Expr} (he : Arithmetic e) (canonical : Bool) :
    let t : Transcoder := {}
    let markup := (t.render e canonical).1
    (reading markup).2.tooDeep = false → (t.parse markup).1 = e := by
  intro t markup hdeep
  have h := exists_rereads he.form canonical hdeep
  refine h.same.2 (not_fused fun hm => ?_)
  obtain ⟨x, hx⟩ := h.factorial hm
  exact he.not_contains x hx

/-- An equation between a power of a sum and a fraction, with a long numeral and a word. -/
def sampleEquation : Expr :=
  .apply "Equal" [
    .apply "Power" [.apply "Add" [.number "12345", .apply "Negate" [.symbol "speed"]],
      .number "-1"],
    .apply "Divide" [.apply "Sin" [.symbol "x"], .apply "Subscript" [.symbol "a", .number "1"]]]

theorem unnamed_speed : Unnamed "speed".toList where
  letters := List.all_eq_true.1 (by decide)
  named := by decide
  sign := by decide
  entry := by
    have hall : Lexicon.standard.all (·.name != some "speed") = true := by decide
    exact fun f hf => bne_iff_ne.1 (List.all_eq_true.1 hall f hf)

theorem arithmetic_sampleEquation : Arithmetic sampleEquation := by
  have hint : ∀ s : String, Numeral.Canonical s.toList → Arithmetic (.number s) := by
    intro s hs
    rw [← String.ofList_toList (s := s)]
    exact .integer hs
  refine .binary (by decide) (.inverse (.collected (by decide) (hint "12345" (by decide)) rfl
    (.negate (.word unnamed_speed (by decide)) rfl) fun x hx => absurd hx (by simp))) ?_
  exact .binary (by decide) (.sin (.letter (c := 'x') rfl))
    (.binary (by decide) (.letter (c := 'a') rfl) (hint "1" (by decide)))

theorem parse_render_sampleEquation :
    Arithmetic sampleEquation ∧
    let t : Transcoder := {}
    let markup := (t.render sampleEquation false).1
    markup = "(12\\,345+(-\\mathrm\x7bspeed\x7d))^\x7b-1\x7d=\\frac\x7b\\sin(x)\x7d\x7ba_\x7b1\x7d\x7d" ∧
      (reading markup).2.tooDeep = false ∧ (t.parse markup).1 = sampleEquation := by
  obtain ⟨hmarkup, hdeep⟩ : (({} : Transcoder).render sampleEquation false).1 =
        "(12\\,345+(-\\mathrm\x7bspeed\x7d))^\x7b-1\x7d=\\frac\x7b\\sin(x)\x7d\x7ba_\x7b1\x7d\x7d" ∧
      (reading (({} : Transcoder).render sampleEquation false).1).2.tooDeep = false := by
    decide +kernel
  exact ⟨arithmetic_sampleEquation, hmarkup, hdeep,
    parse_render_of_arithmetic arithmetic_sampleEquation false hdeep⟩

end Standard
end MathMarkup
