import MathMarkup.Options
import MathMarkup.Proofs.Templates

/-!
# Operands in templates

The template of an invisible operator has to keep both operands. Operands of letters and digits
never end in a backslash, so what becomes of them is up to the template: both are kept exactly if
each has a placeholder that is not right behind a backslash. The options ask for less. They look for
the two placeholders anywhere in the template (`Options.keepsOperands_iff`).
-/

namespace MathMarkup

namespace Template

/-! ## Operands that are kept -/

/-- Markup of letters and digits. -/
structure Plain (markup : String) : Prop where
  ne_empty : markup ≠ ""
  alphanum : ∀ c ∈ markup.toList, c.isAlphanum = true

theorem plain_ofList {cs : List Char} (hne : cs ≠ []) (h : ∀ c ∈ cs, c.isAlphanum = true) :
    Plain (String.ofList cs) where
  ne_empty he := hne (by simpa using congrArg String.toList he)
  alphanum c hc := h c (by rwa [String.toList_ofList] at hc)

theorem plain_letter {c : Char} (hc : c.isAlphanum = true) : Plain (String.ofList [c]) :=
  plain_ofList (List.cons_ne_nil c []) (List.forall_mem_singleton.2 hc)

/-- Plain markup escapes no placeholder. -/
theorem Plain.escapesHash {markup : String} (h : Plain markup) : escapesHash markup = false := by
  refine beq_eq_false_iff_ne.2 fun hlast => ?_
  exact absurd (h.alphanum _ (List.mem_of_getLast? hlast)) (by decide)

/-- Both texts stand in some markup, one apart from the other. -/
def HoldsBoth (a b markup : String) : Prop :=
  ∃ before between after, markup = before ++ a ++ between ++ b ++ after ∨
    markup = before ++ b ++ between ++ a ++ after

/-- Whatever letters and digits two operands are rendered as, the template keeps both. -/
def KeepsOperands (template : String) : Prop :=
  ∀ a b, Plain a → Plain b → HoldsBoth a b (fill template [a, b])

/-- Plain operands never get in the way of a placeholder, so filling writes the pieces. -/
theorem fill_plain (template : String) {a b : String} (ha : Plain a) (hb : Plain b) :
    fill template [a, b] = write [a, b] "" (pieces template.toList) := by
  refine fill_eq_write_of_guarded (guarded_of_arguments (fun x hx => ?_) _)
  rcases List.mem_cons.1 hx with rfl | hx
  · exact ha.escapesHash
  · rw [List.mem_singleton.1 hx]
    exact hb.escapesHash

/-- Writing pieces only adds to what is written. -/
theorem exists_write (args : List String) (written : String) (ps : List Piece) :
    ∃ after, write args written ps = written ++ after := by
  induction ps generalizing written with
  | nil => exact ⟨"", String.append_empty.symm⟩
  | cons p ps ih =>
    obtain ⟨after, hafter⟩ := ih (append written (p.markup args))
    obtain ⟨gap, hgap⟩ := exists_append written (p.markup args)
    exact ⟨gap ++ p.markup args ++ after, by
      rw [write_cons, hafter, hgap]
      simp only [String.append_assoc]⟩

/-- A piece is written behind what is there already. -/
theorem exists_write_of_mem {p : Piece} {ps : List Piece} (hp : p ∈ ps) (args : List String)
    (written : String) :
    ∃ before after, write args written ps = written ++ before ++ p.markup args ++ after := by
  obtain ⟨qs, rs, rfl⟩ := List.append_of_mem hp
  obtain ⟨before, hbefore⟩ := exists_write args written qs
  obtain ⟨gap, hgap⟩ := exists_append (written ++ before) (p.markup args)
  obtain ⟨after, hafter⟩ := exists_write args (append (written ++ before) (p.markup args)) rs
  refine ⟨before ++ gap, after, ?_⟩
  rw [write_append, hbefore, write_cons, hafter, hgap]
  simp only [String.append_assoc]

/-- Two pieces are written apart from one another. -/
theorem holdsBoth_write {p q : Piece} (hne : p ≠ q) {ps : List Piece} (hp : p ∈ ps) (hq : q ∈ ps)
    (args : List String) : HoldsBoth (p.markup args) (q.markup args) (write args "" ps) := by
  obtain ⟨qs, rs, rfl⟩ := List.append_of_mem hp
  -- the other piece is in front of this one or behind it
  rcases List.mem_append.1 hq with hq | hq
  · obtain ⟨before, between, hqs⟩ := exists_write_of_mem hq args ""
    obtain ⟨gap, after, hrs⟩ := exists_write_of_mem (List.mem_cons_self (a := p) (l := rs)) args
      (write args "" qs)
    refine ⟨before, between ++ gap, after, Or.inr ?_⟩
    rw [write_append, hrs, hqs, String.empty_append]
    simp only [String.append_assoc]
  · have hq := (List.mem_cons.1 hq).resolve_left hne.symm
    obtain ⟨gap, hgap⟩ := exists_append (write args "" qs) (p.markup args)
    obtain ⟨between, after, hrs⟩ := exists_write_of_mem hq args
      (append (write args "" qs) (p.markup args))
    refine ⟨write args "" qs ++ gap, between, after, Or.inl ?_⟩
    rw [write_append, write_cons, hrs, hgap]

/-- Arguments that are not used, or that do not have the character, write no more of it than the
template has. -/
theorem count_pieces_le {c : Char} {args : List String} {template : List Char}
    (h : ∀ n, .slot n ∈ pieces template → (argument args n).toList.count c = 0) :
    ((pieces template).flatMap fun p => (p.markup args).toList).count c ≤ template.count c := by
  -- on the template: only its own text writes the character
  induction template using pieces_induction with
  | text cs hcs => rw [pieces_text hcs, flatMap_literal]
  | literal cs rest hcs hl ih =>
    rw [pieces_literal hcs hl] at h ⊢
    have hrest := ih fun n hn => h n (List.mem_append_right _ (List.mem_cons_of_mem _ hn))
    have hhash : ((Piece.text "#").markup args).toList = ['#'] := by
      show "#".toList = _
      decide
    rw [List.flatMap_append, flatMap_literal, List.flatMap_cons, hhash, List.singleton_append,
      List.count_append, List.count_append, List.count_cons, List.count_cons]
    omega
  | slot cs d n rest hcs hl hp _ ih =>
    rw [pieces_slot hcs hl hp] at h ⊢
    have hzero := h n (List.mem_append_right _ List.mem_cons_self)
    have hrest := ih fun m hm => h m (List.mem_append_right _ (List.mem_cons_of_mem _ hm))
    rw [List.flatMap_append, flatMap_literal, List.flatMap_cons, Piece.markup_slot,
      List.count_append, List.count_append, List.count_append, hzero, List.count_cons,
      List.count_cons]
    omega

theorem one_le_of_slot_mem {n : Nat} {template : List Char} (h : .slot n ∈ pieces template) :
    1 ≤ n := by
  obtain ⟨-, c, -, -, hc, -⟩ := slot_mem_pieces_iff.1 h
  exact (of_placeholder? hc).2.2.1

/-- An operand that is longer than the template does not occur by accident. -/
def longOperand (c : Char) (template : String) : String :=
  String.ofList (List.replicate (template.toList.length + 1) c)

theorem plain_longOperand {c : Char} (hc : c.isAlphanum = true) (template : String) :
    Plain (longOperand c template) :=
  plain_ofList (List.cons_ne_nil c _) fun _ hd => List.eq_of_mem_replicate hd ▸ hc

/-- A long operand has its letter once more often than the template is long. -/
theorem count_longOperand (c : Char) (template : String) :
    (longOperand c template).toList.count c = template.toList.length + 1 := by
  rw [longOperand, String.toList_ofList, List.count_replicate_self]

/-- A long operand that is written has a placeholder. -/
theorem slot_mem_of_count {template : String} {args : List String} {c : Char} (hc : c ≠ ' ')
    (n : Nat) (hother : ∀ m, 1 ≤ m → m ≠ n → (argument args m).toList.count c = 0)
    (hcount : template.toList.length + 1 ≤
      (write args "" (pieces template.toList)).toList.count c) :
    .slot n ∈ pieces template.toList := by
  by_contra hn
  have hle : ((pieces template.toList).flatMap fun p => (p.markup args).toList).count c ≤
      template.toList.count c :=
    count_pieces_le fun m hm => hother m (one_le_of_slot_mem hm) fun he => hn (he ▸ hm)
  have hlength := List.count_le_length (a := c) (l := template.toList)
  rw [count_write hc, show "".toList.count c = 0 from rfl] at hcount
  omega

/-- Markup that holds an operand holds its letters. -/
theorem HoldsBoth.count_le {a b markup : String} (h : HoldsBoth a b markup) (c : Char) :
    a.toList.count c ≤ markup.toList.count c ∧ b.toList.count c ≤ markup.toList.count c := by
  obtain ⟨before, between, after, rfl | rfl⟩ := h
  all_goals
    simp only [String.toList_append, List.count_append]
    omega

/-- Both operands are kept exactly if each of them has a placeholder that is not behind a
backslash. -/
theorem keepsOperands_iff_opens (template : String) :
    KeepsOperands template ↔ Opens 1 template.toList ∧ Opens 2 template.toList := by
  rw [← slot_mem_pieces_iff, ← slot_mem_pieces_iff]
  constructor
  · -- an operand that is longer than the template can only come from a placeholder of its own
    intro h
    have hy : Plain "y" := plain_letter (c := 'y') (by decide)
    have hx := plain_longOperand (c := 'x') (by decide) template
    have hshort : "y".toList.count 'x' = 0 := rfl
    constructor
    · have hcount := ((h _ _ hx hy).count_le 'x').1
      rw [fill_plain template hx hy, count_longOperand] at hcount
      refine slot_mem_of_count (by decide) 1 (fun m hm hne => ?_) hcount
      match m with
      | 2 => exact hshort
      | m + 3 => rfl
    · have hcount := ((h _ _ hy hx).count_le 'x').2
      rw [fill_plain template hy hx, count_longOperand] at hcount
      refine slot_mem_of_count (by decide) 2 (fun m hm hne => ?_) hcount
      match m with
      | 1 => exact hshort
      | m + 3 => rfl
  · rintro ⟨h₁, h₂⟩ a b ha hb
    rw [fill_plain template ha hb]
    exact holdsBoth_write (by decide) h₁ h₂ [a, b]

end Template

/-! ## Templates that the options take -/

namespace Options

open Template

/-- What occurs in a text is an infix of it. -/
theorem occurs_iff {piece cs : List Char} : occurs piece cs = true ↔ piece <:+: cs := by
  induction cs with
  | nil => rw [occurs, List.isEmpty_iff, List.infix_nil]
  | cons c cs ih =>
    rw [occurs, Bool.or_eq_true, List.isPrefixOf_iff_prefix, ih, List.infix_cons_iff]

/-- A placeholder occurs in a template exactly if the template mentions it. -/
theorem occurs_placeholder {c : Char} {n : Nat} (hc : ∀ d, placeholder? d = some n ↔ d = c)
    (cs : List Char) : occurs ['#', c] cs = true ↔ Mentions n cs := by
  rw [occurs_iff]
  constructor
  · rintro ⟨before, after, rfl⟩
    exact ⟨before, c, after, by simp, (hc c).2 rfl⟩
  · rintro ⟨before, d, after, rfl, hd⟩
    rw [(hc d).1 hd]
    exact ⟨before, after, by simp⟩

/-- Every argument has one digit. -/
theorem placeholder?_iff {c d : Char} {n : Nat} (hc : placeholder? c = some n) :
    placeholder? d = some n ↔ d = c := by
  refine ⟨fun hd => ?_, fun h => h ▸ hc⟩
  have hcode := (placeholder?_eq_some_iff.1 hc).1
  exact Char.toNat_inj.1 ((placeholder?_eq_some_iff.1 hd).1.trans hcode.symm)

/-- A template is set without a warning, for either of the invisible operators. -/
def Takes (o : Options) (template : String) : Prop :=
  o.merge { invisibleMultiply := some template } =
      ({ o with invisibleMultiply := template }, []) ∧
    o.merge { invisiblePlus := some template } = ({ o with invisiblePlus := template }, [])

theorem takes_iff (o : Options) (template : String) :
    o.Takes template ↔ isUsableTemplate template = true := by
  unfold Takes merge mergeTemplate
  cases h : isUsableTemplate template <;> simp [h, mergeStyle]

/-- The options take a template exactly if it is empty or mentions both operands. -/
theorem isUsableTemplate_iff (template : String) : isUsableTemplate template = true ↔
    template = "" ∨ Mentions 1 template.toList ∧ Mentions 2 template.toList := by
  rw [isUsableTemplate, Bool.or_eq_true, Bool.and_eq_true, String.isEmpty_iff,
    occurs_placeholder fun _ => placeholder?_iff (show placeholder? '1' = some 1 from rfl),
    occurs_placeholder fun _ => placeholder?_iff (show placeholder? '2' = some 2 from rfl)]

/-- The options take a template if it has both placeholders, wherever they stand. It keeps both
operands exactly if each has a placeholder that is not right behind a backslash, and then it is
taken. -/
theorem keepsOperands_iff (o : Options) (template : String) :
    (o.Takes template ↔
        template = "" ∨ Mentions 1 template.toList ∧ Mentions 2 template.toList) ∧
      (KeepsOperands template ↔ Opens 1 template.toList ∧ Opens 2 template.toList) ∧
      (KeepsOperands template → o.Takes template) := by
  have htakes := (o.takes_iff template).trans (isUsableTemplate_iff template)
  refine ⟨htakes, keepsOperands_iff_opens template, fun h => htakes.2 (Or.inr ?_)⟩
  obtain ⟨h₁, h₂⟩ := (keepsOperands_iff_opens template).1 h
  exact ⟨h₁.mentions, h₂.mentions⟩

/-- So a template may be taken that drops an operand: in `\#1#2` the first hash is literal. -/
theorem exists_takes_drops : ¬ ∀ (o : Options) (template a b : String), template ≠ "" →
    o.Takes template → Plain a → Plain b → HoldsBoth a b (fill template [a, b]) := by
  intro h
  have htakes : Options.Takes {} "\\#1#2" := (takes_iff _ _).2 (by decide +kernel)
  have hkept := h {} "\\#1#2" "x" "y" (by decide) htakes (plain_letter (c := 'x') (by decide))
    (plain_letter (c := 'y') (by decide))
  have hcount := (hkept.count_le 'x').1
  exact absurd hcount (by decide +kernel)

end Options
end MathMarkup
