import MathMarkup.Proofs.Decimals

/-!
# Which texts are numbers

The text of a number is taken apart in several cuts: the sign in front, the exponent at the first
`e` or `E`, the fraction at the point, the repeating part at its parenthesis. Each cut looks for one
mark and knows nothing about the others, so it takes a grammar to say which texts come through all
of them (`IsNumber`). Every text either belongs to it and has a rendering, or is reported
(`render_iff_isNumber`).

The signs that an exponent may have are a parameter of the grammar. There are three by rights: none,
plus and minus. The reader drops a plus and then looks for a minus, and so lets both through.
-/

namespace MathMarkup.Numeral

/-- Digits, perhaps none. -/
def Digits (cs : List Char) : Prop :=
  ∀ c ∈ cs, c.isDigit = true

/-- Digits before and after a point and in a block that repeats. The block is after the point, the
point may be missing, and so may any of the digits but not all. -/
inductive Mantissa : List Char → Prop
  | whole {ds : List Char} : Digits ds → ds ≠ [] → Mantissa ds
  | fraction {ds fs : List Char} : Digits ds → Digits fs → ds ++ fs ≠ [] →
      Mantissa (ds ++ '.' :: fs)
  | repeating {ds fs rs : List Char} : Digits ds → Digits fs → Digits rs → ds ++ fs ++ rs ≠ [] →
      Mantissa (ds ++ '.' :: (fs ++ '(' :: (rs ++ [')'])))

/-- No sign, a plus or a minus. -/
def signs : List (List Char) :=
  [[], ['+'], ['-']]

/-- One of some signs and at least one digit. -/
def SignedDigits (allowed : List (List Char)) (cs : List Char) : Prop :=
  ∃ sign ∈ allowed, ∃ ds, Digits ds ∧ ds ≠ [] ∧ cs = sign ++ ds

/-- An exponent with its mark, or none. -/
inductive Exponent (allowed : List (List Char)) : List Char → Prop
  | none : Exponent allowed []
  | marked {mark : Char} {cs : List Char} : mark = 'e' ∨ mark = 'E' → SignedDigits allowed cs →
      Exponent allowed (mark :: cs)

/-- A sign, a mantissa and an exponent with one of some signs. -/
def Finite (allowed : List (List Char)) (cs : List Char) : Prop :=
  ∃ sign ∈ signs, ∃ mantissa exponent,
    Mantissa mantissa ∧ Exponent allowed exponent ∧ cs = sign ++ (mantissa ++ exponent)

/-- The text of a number: a special value or a finite one. -/
def IsNumber (allowed : List (List Char)) (text : String) : Prop :=
  text ∈ ["NaN", "Infinity", "+Infinity", "-Infinity"] ∨ Finite allowed text.toList

theorem areDigits_iff {cs : List Char} : areDigits cs = true ↔ Digits cs :=
  List.all_eq_true

/-! ## Cuts -/

/-- A cut is made at the first mark if there is one. -/
theorem cut_cases (isMark : Char → Bool) (cs : List Char) :
    ((∀ c ∈ cs, isMark c = false) ∧ cut isMark cs = (cs, none)) ∨
      ∃ before m after, cs = before ++ m :: after ∧ isMark m = true ∧
        cut isMark cs = (before, some after) := by
  cases hfind : cs.find? isMark with
  | none =>
    have hnone : ∀ c ∈ cs, isMark c = false := by
      intro c hc
      simpa using List.find?_eq_none.1 hfind c hc
    exact Or.inl ⟨hnone, cut_of_digits hnone⟩
  | some m =>
    obtain ⟨hm, before, after, rfl, hbefore⟩ := List.find?_eq_some_iff_append.1 hfind
    have hnone : ∀ c ∈ before, isMark c = false := by
      intro c hc
      simpa using hbefore c hc
    exact Or.inr ⟨before, m, after, rfl, hm, cut_append hnone hm after⟩

theorem closed?_eq_some_iff {cs rs : List Char} : closed? cs = some rs ↔ cs = rs ++ [')'] := by
  unfold closed?
  constructor
  · intro h
    split at h
    next hlast =>
      obtain rfl := Option.some.inj h
      exact (List.dropLast_append_getLast? ')' (beq_iff_eq.1 hlast)).symm
    next => cases h
  · rintro rfl
    simp

/-! ## The mantissa -/

theorem readFraction?_eq_some_iff {cs fs rs : List Char} (hf : Digits fs) :
    readFraction? cs = some (fs, rs) ↔
      cs = fs ∧ rs = [] ∨ cs = fs ++ '(' :: (rs ++ [')']) := by
  constructor
  · intro h
    unfold readFraction? at h
    -- the digits are cut at the parenthesis, if there is one
    rcases cut_cases (· == '(') cs with ⟨-, hcut⟩ | ⟨before, m, after, rfl, hm, hcut⟩
    · rw [hcut] at h
      obtain ⟨rfl, rfl⟩ := Prod.mk.inj (Option.some.inj h)
      exact Or.inl ⟨rfl, rfl⟩
    · rw [hcut] at h
      obtain ⟨rs', hclosed, heq⟩ := Option.map_eq_some_iff.1 h
      obtain ⟨rfl, rfl⟩ := Prod.mk.inj heq
      rw [closed?_eq_some_iff.1 hclosed, beq_iff_eq.1 hm]
      exact Or.inr rfl
  · have hmark := mark_of_digits (m := '(') rfl hf
    unfold readFraction?
    intro h
    rcases h with ⟨rfl, rfl⟩ | rfl
    · rw [cut_of_digits hmark]
    · rw [cut_append hmark (beq_self_eq_true '(')]
      show (closed? (rs ++ [')'])).map (fs, ·) = _
      rw [closed?_eq_some_iff.2 rfl]
      rfl

/-- The whole part is read before the point, and the other digits after it. -/
theorem isSome_readMantissa?_iff_parts {negative : Bool} {cs : List Char} :
    (readMantissa? negative cs).isSome = true ↔
      ∃ fs rs, readFraction? ((cut (· == '.') cs).2.getD []) = some (fs, rs) ∧
        Digits (cut (· == '.') cs).1 ∧ Digits fs ∧ Digits rs ∧
          (cut (· == '.') cs).1 ++ fs ++ rs ≠ [] := by
  unfold readMantissa?
  generalize cut (· == '.') cs = parts
  obtain ⟨ds, after⟩ := parts
  dsimp only
  cases readFraction? (after.getD []) with
  | none => simp
  | some parts =>
    obtain ⟨fs, rs⟩ := parts
    have hempty : (!(ds.isEmpty && fs.isEmpty && rs.isEmpty)) = true ↔ ds ++ fs ++ rs ≠ [] := by
      cases ds <;> cases fs <;> simp
    simp only [Option.bind_eq_bind, Option.bind_some, Option.isSome_ite, Bool.and_eq_true,
      areDigits_iff, hempty]
    constructor
    · rintro ⟨⟨⟨hd, hf⟩, hr⟩, hne⟩
      exact ⟨fs, rs, rfl, hd, hf, hr, hne⟩
    · rintro ⟨fs, rs, heq, hd, hf, hr, hne⟩
      obtain ⟨rfl, rfl⟩ := Prod.mk.inj (Option.some.inj heq)
      exact ⟨⟨⟨hd, hf⟩, hr⟩, hne⟩

theorem isSome_readMantissa?_iff {negative : Bool} {cs : List Char} :
    (readMantissa? negative cs).isSome = true ↔ Mantissa cs := by
  rw [isSome_readMantissa?_iff_parts]
  constructor
  · rintro ⟨fs, rs, hfraction, hd, hf, hr, hne⟩
    rcases cut_cases (· == '.') cs with ⟨-, hcut⟩ | ⟨ds, m, after, rfl, hm, hcut⟩
    · rw [hcut] at hfraction hd hne
      obtain ⟨rfl, rfl⟩ := Prod.mk.inj (Option.some.inj hfraction)
      exact .whole hd (by simpa using hne)
    · rw [hcut] at hfraction hd hne
      obtain rfl := beq_iff_eq.1 hm
      rcases (readFraction?_eq_some_iff hf).1 hfraction with ⟨hafter, rfl⟩ | hafter
      · obtain rfl : after = fs := hafter
        exact .fraction hd hf (by simpa using hne)
      · obtain rfl : after = fs ++ '(' :: (rs ++ [')']) := hafter
        exact .repeating hd hf hr hne
  · intro h
    cases h with
    | whole hd hne =>
      rw [cut_of_digits (mark_of_digits (m := '.') rfl hd)]
      exact ⟨[], [], rfl, hd, List.forall_mem_nil _, List.forall_mem_nil _, by simpa using hne⟩
    | fraction hd hf hne =>
      rw [cut_append (mark_of_digits (m := '.') rfl hd) (beq_self_eq_true '.')]
      exact ⟨_, [], (readFraction?_eq_some_iff hf).2 (Or.inl ⟨rfl, rfl⟩), hd, hf,
        List.forall_mem_nil _, by simpa using hne⟩
    | repeating hd hf hr hne =>
      rw [cut_append (mark_of_digits (m := '.') rfl hd) (beq_self_eq_true '.')]
      exact ⟨_, _, (readFraction?_eq_some_iff hf).2 (Or.inr rfl), hd, hf, hr, hne⟩

/-- A mantissa has digits, a point and parentheses and nothing else. -/
theorem Mantissa.mem {cs : List Char} (h : Mantissa cs) :
    ∀ c ∈ cs, c.isDigit = true ∨ c ∈ ['.', '(', ')'] := by
  intro c hc
  cases h with
  | whole hd => exact Or.inl (hd c hc)
  | fraction hd hf =>
    simp only [List.mem_append, List.mem_cons] at hc
    rcases hc with hc | rfl | hc
    · exact Or.inl (hd c hc)
    · simp
    · exact Or.inl (hf c hc)
  | repeating hd hf hr =>
    simp only [List.mem_append, List.mem_cons, List.not_mem_nil, or_false] at hc
    rcases hc with hc | rfl | hc | rfl | hc | rfl
    · exact Or.inl (hd c hc)
    · simp
    · exact Or.inl (hf c hc)
    · simp
    · exact Or.inl (hr c hc)
    · simp

/-- What is no digit, no point and no parenthesis does not stand in a mantissa. -/
theorem Mantissa.ne_of_mem {cs : List Char} (h : Mantissa cs) {c d : Char} (hc : c ∈ cs)
    (hd : d.isDigit = false) (hmark : d ∉ ['.', '(', ')']) : c ≠ d := by
  rintro rfl
  rcases h.mem c hc with hdigit | hm
  · exact isDigit_of_ne hdigit hd rfl
  · exact hmark hm

theorem Mantissa.ne_nil {cs : List Char} (h : Mantissa cs) : cs ≠ [] := by
  cases h with
  | whole _ hne => exact hne
  | fraction | repeating => simp

/-! ## Signs -/

theorem exists_dropLeading (c : Char) (cs : List Char) :
    ∃ lead, (lead = [] ∨ lead = [c]) ∧ cs = lead ++ dropLeading c cs := by
  cases cs with
  | nil => exact ⟨[], Or.inl rfl, rfl⟩
  | cons d ds =>
    by_cases h : d = c
    · exact ⟨[c], Or.inr rfl, by simp [dropLeading, h]⟩
    · exact ⟨[], Or.inl rfl, by simp [dropLeading, h]⟩

theorem dropLeading_of_ne {c : Char} {cs : List Char} (h : ∀ d ∈ cs.head?, d ≠ c) :
    dropLeading c cs = cs := by
  cases cs with
  | nil => rfl
  | cons d ds => simp [dropLeading, h d rfl]

/-- The text of a number without its sign. -/
def unsigned (cs : List Char) : List Char :=
  if cs.head? == some '-' then cs.tail else dropLeading '+' cs

theorem exists_sign (cs : List Char) : ∃ sign ∈ signs, cs = sign ++ unsigned cs := by
  unfold unsigned
  by_cases hminus : cs.head? = some '-'
  · rw [if_pos (beq_iff_eq.2 hminus)]
    exact ⟨['-'], by simp [signs], (List.eq_cons_of_mem_head? hminus)⟩
  · rw [if_neg (by simpa using hminus)]
    obtain ⟨plus, hplus, hcs⟩ := exists_dropLeading '+' cs
    exact ⟨plus, by rcases hplus with rfl | rfl <;> simp [signs], hcs⟩

/-- Only one sign is taken off. -/
theorem unsigned_append {sign cs : List Char} (hs : sign ∈ signs)
    (hcs : ∀ c ∈ cs.head?, c ≠ '+' ∧ c ≠ '-') : unsigned (sign ++ cs) = cs := by
  have hplus := dropLeading_of_ne fun c hc => (hcs c hc).1
  simp only [signs, List.mem_cons, List.not_mem_nil, or_false] at hs
  rcases hs with rfl | rfl | rfl
  · have hminus : ¬ (cs.head? == some '-') = true := by
      intro h
      exact (hcs '-' (beq_iff_eq.1 h)).2 rfl
    rw [List.nil_append, unsigned, if_neg hminus, hplus]
  · rfl
  · rfl

/-- An exponent may have one sign more than the others: a minus behind a plus. -/
theorem isSome_readExponent?_iff {cs : List Char} :
    (readExponent? cs).isSome = true ↔ SignedDigits (['+', '-'] :: signs) cs := by
  have hdigits : ∀ ds, (!ds.isEmpty && areDigits ds) = true ↔ ds ≠ [] ∧ Digits ds := by
    intro ds
    simp [areDigits_iff]
  unfold readExponent?
  simp only [Option.isSome_ite, hdigits]
  constructor
  · intro h
    obtain ⟨hne, hds⟩ := h
    -- each of the two signs may be left out
    obtain ⟨plus, hplus, hcs⟩ := exists_dropLeading '+' cs
    obtain ⟨minus, hminus, hrest⟩ := exists_dropLeading '-' (dropLeading '+' cs)
    refine ⟨plus ++ minus, ?_, _, hds, hne, ?_⟩
    · rcases hplus with rfl | rfl <;> rcases hminus with rfl | rfl <;> simp [signs]
    · rw [List.append_assoc, ← hrest]
      exact hcs
  · intro h
    obtain ⟨sign, hsign, ds, hds, hne, rfl⟩ := h
    have hhead : ∀ c : Char, c.isDigit = false → dropLeading c ds = ds := by
      intro c hc
      exact dropLeading_of_ne fun d hd => isDigit_of_ne (hds d (List.mem_of_mem_head? hd)) hc
    have hplus := hhead '+' rfl
    have hminus := hhead '-' rfl
    have hleft : dropLeading '-' (dropLeading '+' (sign ++ ds)) = ds := by
      simp only [signs, List.mem_cons, List.not_mem_nil, or_false] at hsign
      rcases hsign with rfl | rfl | rfl | rfl
      · rfl
      · rw [List.nil_append, hplus, hminus]
      · exact hminus
      · rfl
    rw [hleft]
    exact ⟨hne, hds⟩

/-! ## The whole text -/

/-- Whether a character begins an exponent. -/
def isExponentMark (c : Char) : Bool :=
  c == 'e' || c == 'E'

/-- The grammar by the cuts: the sign is taken off and what is left is cut at the exponent. -/
theorem finite_iff {allowed : List (List Char)} {cs : List Char} :
    Finite allowed cs ↔ Mantissa (cut isExponentMark (unsigned cs)).1 ∧
      ∀ after, (cut isExponentMark (unsigned cs)).2 = some after → SignedDigits allowed after := by
  constructor
  · rintro ⟨sign, hsign, mantissa, exponent, hm, he, rfl⟩
    -- neither the sign nor the mark of the exponent is in a mantissa, so both cuts are where they
    -- should be
    have hunsigned : unsigned (sign ++ (mantissa ++ exponent)) = mantissa ++ exponent := by
      refine unsigned_append hsign fun c hc => ?_
      rw [List.head?_append_of_ne_nil _ hm.ne_nil] at hc
      have hmem := List.mem_of_mem_head? hc
      exact ⟨hm.ne_of_mem hmem rfl (by simp), hm.ne_of_mem hmem rfl (by simp)⟩
    have hnone : ∀ c ∈ mantissa, isExponentMark c = false := by
      intro c hc
      have he := hm.ne_of_mem hc (d := 'e') rfl (by simp)
      have hE := hm.ne_of_mem hc (d := 'E') rfl (by simp)
      simp [isExponentMark, he, hE]
    rw [hunsigned]
    cases he with
    | none =>
      rw [List.append_nil, cut_of_digits hnone]
      exact ⟨hm, fun after h => by cases h⟩
    | marked hmark hdigits =>
      rw [cut_append hnone (by simpa [isExponentMark] using hmark)]
      refine ⟨hm, ?_⟩
      intro after h
      obtain rfl := Option.some.inj h
      exact hdigits
  · intro h
    obtain ⟨hm, hdigits⟩ := h
    obtain ⟨sign, hsign, heq⟩ := exists_sign cs
    rcases cut_cases isExponentMark (unsigned cs) with
      ⟨-, hcut⟩ | ⟨before, m, after, hcs, hmark, hcut⟩
    · rw [hcut] at hm
      refine ⟨sign, hsign, _, [], hm, .none, ?_⟩
      rw [List.append_nil]
      exact heq
    · rw [hcut] at hm hdigits
      refine ⟨sign, hsign, before, m :: after, hm, .marked ?_ (hdigits after rfl), ?_⟩
      · simpa [isExponentMark] using hmark
      · rw [← hcs]
        exact heq

/-- The reader makes the same cuts. -/
theorem read?_of_cut {text : String} {mantissa : List Char} {exponent : Option (List Char)}
    (h : cut isExponentMark (unsigned text.toList) = (mantissa, exponent)) :
    read? text = (readMantissa? (text.toList.head? == some '-') mantissa).bind fun n =>
      exponent.elim (some n) fun after =>
        (readExponent? after).map fun exponent => { n with exponent } := by
  unfold isExponentMark unsigned at h
  unfold read?
  dsimp only
  rw [h]
  cases exponent <;> rfl

/-- It is in the exponent that it takes more than there is in a number. -/
theorem isSome_read?_iff {text : String} :
    (read? text).isSome = true ↔ Finite (['+', '-'] :: signs) text.toList := by
  rw [finite_iff]
  obtain ⟨mantissa, exponent, hcut⟩ :
      ∃ mantissa exponent, cut isExponentMark (unsigned text.toList) = (mantissa, exponent) :=
    ⟨_, _, rfl⟩
  rw [read?_of_cut hcut, hcut, ← @isSome_readMantissa?_iff (text.toList.head? == some '-')]
  cases readMantissa? (text.toList.head? == some '-') mantissa with
  | none => simp
  | some n =>
    cases exponent with
    | none => simp
    | some after => simp [← isSome_readExponent?_iff]

/-- A text has a rendering exactly if it is a number, where an exponent may have both signs as well,
a plus and then a minus. Any other text is reported as no number, whatever the format. -/
theorem render_iff_isNumber (text : String) (format : NumberFormat) :
    ((∃ markup, render text format = .ok markup) ↔ IsNumber (['+', '-'] :: signs) text) ∧
      (render text format = .error (.unserializable ("number `" ++ text ++ "`")) ↔
        ¬ IsNumber (['+', '-'] :: signs) text) := by
  unfold IsNumber
  rw [← isSome_read?_iff]
  unfold render
  by_cases hspecial : text ∈ ["NaN", "Infinity", "+Infinity", "-Infinity"]
  · simp only [hspecial, true_or]
    simp only [List.mem_cons, List.not_mem_nil, or_false] at hspecial
    rcases hspecial with rfl | rfl | rfl | rfl <;> simp
  · have hother := hspecial
    simp only [List.mem_cons, List.not_mem_nil, or_false, not_or] at hother
    obtain ⟨hnan, hinfinity, hplus, hminus⟩ := hother
    rw [if_neg hnan, if_neg (not_or.2 ⟨hinfinity, hplus⟩), if_neg hminus]
    cases read? text <;> simp [hspecial]

/-- A plus and a minus are two signs. -/
theorem not_signedDigits_plus_minus (cs : List Char) : ¬ SignedDigits signs ('+' :: '-' :: cs) := by
  intro h
  obtain ⟨sign, hsign, ds, hds, -, heq⟩ := h
  simp only [signs, List.mem_cons, List.not_mem_nil, or_false] at hsign
  rcases hsign with rfl | rfl | rfl
  · obtain rfl : '+' :: '-' :: cs = ds := heq
    exact absurd (hds '+' List.mem_cons_self) (by decide)
  · obtain ⟨-, rfl⟩ := List.cons.inj heq
    exact absurd (hds '-' List.mem_cons_self) (by decide)
  · exact absurd (List.cons.inj heq).1 (by decide)

/-- An exponent has one sign at most in a number, but `1e+-5` has a rendering. -/
theorem exists_render_not_isNumber :
    ¬ ∀ text format, (∃ markup, render text format = .ok markup) ↔ IsNumber signs text := by
  intro h
  have hrender : render "1e+-5" {} = .ok "10^\x7b-5\x7d" := by decide +kernel
  rcases (h "1e+-5" {}).1 ⟨_, hrender⟩ with hspecial | hfinite
  · exact absurd hspecial (by decide)
  · exact not_signedDigits_plus_minus ['5'] ((finite_iff.1 hfinite).2 _ (by decide +kernel))

end MathMarkup.Numeral
