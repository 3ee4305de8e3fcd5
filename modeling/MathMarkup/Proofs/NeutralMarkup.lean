import MathMarkup.Proofs.Braces
import MathMarkup.Proofs.Numerals
import MathMarkup.Template

/-!
# Markup that leaves braces alone

Whatever a name is written as leaves the open braces as they are (`Name.neutral_encode`), as long as
its characters do once they are escaped. Accents, typefaces and scripts put their arguments in
braces; the characters that are left to stand for themselves are no braces. The same holds of
numerals (`Numeral.neutral_render`), and of a template that is filled with markup of this sort
(`Template.neutral_fill`).
-/

namespace MathMarkup
namespace Name

open Lexer

/-! ## The tables -/

/-- The markup in the tables of names is neutral. -/
theorem depthAfter_tables :
    (namedSymbols.all fun s => depthAfter 0 s.command.toList == some 0) = true ∧
    (symbolWords.all fun w => depthAfter 0 w.2.toList == some 0) = true ∧
    (accents.all fun a => depthAfter 0 a.markup.toList == some 0 &&
      !extendsControlWord a.markup) = true ∧
    (typefaces.all fun t => depthAfter 0 t.command.toList == some 0) = true ∧
    (digitWords.all fun d => depthAfter 0 d.1.toList == some 0 &&
      depthAfter 0 d.2.toList == some 0) = true := by
  decide +kernel

/-- The commands of the named symbols open and close nothing. -/
theorem neutral_symbol {s : NamedSymbol} (h : s ∈ namedSymbols) : Neutral s.command :=
  nests_of_depthAfter (beq_iff_eq.1 (List.all_eq_true.1 depthAfter_tables.1 s h))

/-- The markup of the words for signs opens and closes nothing. -/
theorem neutral_symbolWord {w : String × String} (h : w ∈ symbolWords) : Neutral w.2 :=
  nests_of_depthAfter (beq_iff_eq.1 (List.all_eq_true.1 depthAfter_tables.2.1 w h))

/-- The commands of the typefaces open and close nothing. -/
theorem neutral_typeface {t : Typeface} (h : t ∈ typefaces) : Neutral t.command :=
  nests_of_depthAfter (beq_iff_eq.1 (List.all_eq_true.1 depthAfter_tables.2.2.2.1 t h))

/-- The words for digits open and close nothing. -/
theorem neutral_digitWord {d : String × String} (h : d ∈ digitWords) :
    Neutral d.1 ∧ Neutral d.2 := by
  have hd := List.all_eq_true.1 depthAfter_tables.2.2.2.2 d h
  rw [Bool.and_eq_true, beq_iff_eq, beq_iff_eq] at hd
  exact ⟨nests_of_depthAfter hd.1, nests_of_depthAfter hd.2⟩

/-- The accents open and close nothing, and none begins like a part of a control word. -/
theorem neutral_accent {a : Accent} (h : a ∈ accents) :
    Neutral a.markup ∧ extendsControlWord a.markup = false := by
  have ha := List.all_eq_true.1 depthAfter_tables.2.2.1 a h
  rw [Bool.and_eq_true, beq_iff_eq, Bool.not_eq_true'] at ha
  exact ⟨nests_of_depthAfter ha.1, ha.2⟩

/-- What a table has for a word is one of its rows. -/
theorem mem_of_lookup {w value : String} {table : List (String × String)}
    (h : table.lookup w = some value) : (w, value) ∈ table := by
  obtain ⟨before, after, rfl, -⟩ := List.lookup_eq_some_iff.1 h
  exact List.mem_append_right before List.mem_cons_self

/-! ## Parts -/

/-- Characters of words are written as they are. -/
theorem inert_of_isWordChar {c : Char} (h : isWordChar c = true) : Inert c :=
  inert_of h

/-- The markup of a sign opens and closes nothing. -/
theorem neutral_signMarkup? {base : List Char} {markup : String}
    (h : signMarkup? base = some markup) : Neutral markup := by
  have hword : symbolWords.lookup (String.ofList base) = some markup → Neutral markup :=
    fun hw => neutral_symbolWord (mem_of_lookup hw)
  unfold signMarkup? at h
  dsimp only at h
  split at h
  next c =>
    cases hc : symbolOfChar? c with
    | some s =>
      rw [hc] at h
      rw [← Option.some.inj h]
      exact neutral_symbol (List.mem_of_find?_eq_some hc)
    | none =>
      rw [hc] at h
      exact hword h
  next => exact hword h

/-- The markup of a base is that of a symbol, or made of word characters. -/
theorem neutral_baseMarkup? {base : List Char} {inTypeface : Bool} {markup : String}
    (h : baseMarkup? base inTypeface = some markup) : Neutral markup := by
  -- a symbol, a digit by its word, a sign, or characters of words
  unfold baseMarkup? at h
  dsimp only at h
  split at h
  next hs =>
    rw [← Option.some.inj h]
    exact neutral_symbol (List.mem_of_find?_eq_some hs)
  next digit _ _ hd =>
    have hm := neutral_digitWord (mem_of_lookup hd)
    rw [← Option.some.inj h]
    split
    · exact hm.2
    · exact hm.1
  next hs =>
    rw [← Option.some.inj h]
    exact neutral_signMarkup? hs
  next =>
    split at h
    next hall =>
      rw [← Option.some.inj h]
      refine neutral_inert fun c hc => inert_of_isWordChar ?_
      rw [String.toList_ofList] at hc
      exact List.all_eq_true.1 hall c hc
    next => cases h

/-- An accent closes the braces that it opens around markup. -/
theorem Accent.neutral_apply {a : Accent} (ha : a ∈ accents) {markup : String}
    (h : Neutral markup) : Neutral (a.apply markup) := by
  obtain ⟨hmarkup, hextends⟩ := neutral_accent ha
  unfold Accent.apply
  split
  · exact neutral_command hmarkup h
  · exact h.before hmarkup hextends

/-- A typeface closes the braces that it opens around markup. -/
theorem Typeface.neutral_apply {t : Typeface} (ht : t ∈ typefaces) {markup : String}
    (h : Neutral markup) : Neutral (t.apply markup) :=
  neutral_command (neutral_typeface ht) h

/-- Modifiers are among those that can be found. -/
theorem mem_modifiers {α : Type} {find? : String → Option α} {cs : List Char} {a : α}
    (h : a ∈ (modifiers find? cs).1) : ∃ word, find? word = some a := by
  fun_induction modifiers find? cs with
  | case1 cs word rest hm b hb r ih =>
    rcases List.mem_cons.1 h with rfl | h
    · exact ⟨word, hb⟩
    · exact ih h
  | case2 => exact absurd h List.not_mem_nil
  | case3 => exact absurd h List.not_mem_nil

/-- The accents that are read off a part are among those of the table. -/
theorem mem_accents_of_readPart {cs : List Char} :
    ∀ a ∈ (readPart cs).1.accents, a ∈ accents := by
  intro a ha
  obtain ⟨word, hw⟩ := mem_modifiers ha
  exact List.mem_of_find?_eq_some hw

/-- The typefaces that are read off a part are among those of the table. -/
theorem mem_typefaces_of_readPart {cs : List Char} :
    ∀ t ∈ (readPart cs).1.typefaces, t ∈ typefaces := by
  intro t ht
  obtain ⟨word, hw⟩ := mem_modifiers ht
  exact List.mem_of_find?_eq_some hw

/-- What is wrapped step by step is neutral if each step keeps it so. -/
theorem neutral_foldl {α : Type} {f : String → α → String} {as : List α} {markup : String}
    (h : Neutral markup) (hf : ∀ s, ∀ a ∈ as, Neutral s → Neutral (f s a)) :
    Neutral (as.foldl f markup) := by
  induction as generalizing markup with
  | nil => exact h
  | cons a as ih =>
    exact ih (hf markup a List.mem_cons_self h) fun s b hb => hf s b (List.mem_cons_of_mem a hb)

/-- A part with its accents is neutral. -/
theorem Part.neutral_accented? {p : Part} (ha : ∀ a ∈ p.accents, a ∈ Name.accents)
    {markup : String} (h : p.accented? = some markup) : Neutral markup := by
  obtain ⟨body, hb, rfl⟩ := Option.map_eq_some_iff.1 h
  exact neutral_foldl (neutral_baseMarkup? hb) fun s a hm hs => Accent.neutral_apply (ha a hm) hs

/-- A part with its typefaces is neutral. -/
theorem neutral_typefaces {faces : List Typeface} (hf : ∀ t ∈ faces, t ∈ typefaces)
    {markup : String} (h : Neutral markup) : Neutral (faces.foldl Typeface.apply markup) :=
  neutral_foldl h fun _ t hm hs => Typeface.neutral_apply (hf t hm) hs

/-! ## Scripts -/

/-- A script is neutral. -/
theorem neutral_script? {cs rest : List Char} {markup : String}
    (h : script? cs = some (markup, rest)) : Neutral markup := by
  obtain ⟨body, hb, heq⟩ := Option.map_eq_some_iff.1 h
  obtain ⟨rfl, -⟩ := Prod.mk.inj heq
  exact neutral_typefaces mem_typefaces_of_readPart
    (Part.neutral_accented? mem_accents_of_readPart hb)

/-- Scripts above and below are neutral each. -/
theorem neutral_scripts? {cs : List Char} {s : Scripts} (h : scripts? cs = some s) :
    (∀ markup ∈ s.above, Neutral markup) ∧ ∀ markup ∈ s.below, Neutral markup := by
  fun_induction scripts? cs generalizing s with
  | case1 after markup rest hs ih =>
    obtain ⟨r, hr, rfl⟩ := Option.map_eq_some_iff.1 h
    obtain ⟨habove, hbelow⟩ := ih hr
    exact ⟨List.forall_mem_cons.2 ⟨neutral_script? hs, habove⟩, hbelow⟩
  | case2 => cases h
  | case3 after _ markup rest hs ih =>
    obtain ⟨r, hr, rfl⟩ := Option.map_eq_some_iff.1 h
    obtain ⟨habove, hbelow⟩ := ih hr
    exact ⟨habove, List.forall_mem_cons.2 ⟨neutral_script? hs, hbelow⟩⟩
  | case4 => cases h
  | case5 =>
    obtain rfl := Option.some.inj h
    exact ⟨fun _ hm => absurd hm List.not_mem_nil, fun _ hm => absurd hm List.not_mem_nil⟩

/-- Scripts that are added to a body leave it neutral. -/
theorem neutral_addScripts {mark body : String} (hm : Neutral mark)
    (he : extendsControlWord mark = false) (hne : mark ≠ "") {scripts : List String}
    (hs : ∀ s ∈ scripts, Neutral s) (hb : Neutral body) :
    Neutral (addScripts mark scripts body) := by
  have hcomma : Neutral "," := nests_of_depthAfter (by decide)
  unfold addScripts
  split
  · exact hb
  · rw [String.append_assoc]
    exact hb.before (neutral_command hm
      (neutral_intercalate hcomma (by decide) (by decide) (by decide) hs))
      (extendsControlWord_append he hne _)

/-! ## Whole names -/

/-- A name that is wrapped in a typeface is neutral. -/
theorem Wrapping.neutral_apply (w : Wrapping) {body : String} (h : Neutral body) :
    Neutral (w.apply body) := by
  have hwrap : ∀ {command}, depthAfter 0 command.toList = some 0 →
      Neutral (command ++ braced body) :=
    fun hc => neutral_command (nests_of_depthAfter hc) h
  cases w with
  | auto =>
    unfold Wrapping.apply
    dsimp only
    split
    · exact hwrap (by decide)
    · exact h
  | upright => exact hwrap (by decide)
  | italic => exact hwrap (by decide)
  | operator => exact hwrap (by decide)
  | none => exact h

/-- The digits at the end of a base are digits. -/
theorem isDigit_of_mem_splitDigits {base : List Char} :
    ∀ c ∈ (splitDigits base).2, c.isDigit = true := by
  intro c hc
  unfold splitDigits at hc
  dsimp only at hc
  split at hc
  · exact absurd hc List.not_mem_nil
  · exact List.all_eq_true.1 List.all_takeWhile c (List.mem_reverse.1 hc)

/-- A name that is taken apart is written as neutral markup. -/
theorem neutral_structured? {cs : List Char} {w : Wrapping} {markup : String}
    (h : structured? cs w = some markup) : Neutral markup := by
  unfold structured? at h
  obtain ⟨body, hb, h⟩ := Option.bind_eq_some_iff.1 h
  obtain ⟨s, hs, h⟩ := Option.bind_eq_some_iff.1 h
  obtain ⟨habove, hbelow⟩ := neutral_scripts? hs
  let p := (readPart cs).1
  let digits := (splitDigits p.base).2
  have hbody : Neutral body :=
    @Part.neutral_accented? { p with base := (splitDigits p.base).1 } mem_accents_of_readPart _ hb
  -- digits at the end of the base become the first subscript
  have hscripts : Neutral (addScripts "_" (if digits.isEmpty then s.below
      else String.ofList digits :: s.below) (addScripts "^" s.above body)) := by
    refine neutral_addScripts (nests_of_depthAfter (by decide)) (by decide) (by decide) ?_
      (neutral_addScripts (nests_of_depthAfter (by decide)) (by decide) (by decide) habove hbody)
    split
    · exact hbelow
    · refine List.forall_mem_cons.2 ⟨neutral_inert fun c hc => ?_, hbelow⟩
      rw [String.toList_ofList] at hc
      exact inert_of_isDigit (isDigit_of_mem_splitDigits c hc)
  replace h : (if s.rest.isEmpty then some (if p.typefaces.isEmpty then w.apply _
    else p.typefaces.foldl Typeface.apply _) else none) = some markup := h
  split at h
  · rw [← Option.some.inj h]
    split
    · exact Wrapping.neutral_apply w hscripts
    · exact neutral_typefaces mem_typefaces_of_readPart hscripts
  · cases h

/-- A name with its characters escaped. -/
theorem opens_escape {name : List Char} (h : '\\' ∉ name) (depth : Nat) (rest : List Char) :
    opens .math depth ((escape name).toList ++ rest) = opens .math depth rest := by
  rw [escape, String.toList_ofList]
  induction name with
  | nil => rfl
  | cons c name ih =>
    rw [List.mem_cons, not_or] at h
    rw [List.flatMap_cons, List.append_assoc, ← ih h.2]
    split
    next hc =>
      have hletter : (escapedChars.all fun d => !d.isAlpha) = true := by decide
      have hcase := List.all_eq_true.1 hletter c (List.contains_iff_mem.1 hc)
      exact opens_controlSymbol (by simpa using hcase) depth _
    next hc =>
      have hinert : ∀ d ∈ ['%', '{', '}'], c ≠ d := by
        rintro d hd rfl
        have hmarks : ['%', '{', '}'].all escapedChars.contains = true := by decide
        exact hc (List.all_eq_true.1 hmarks c hd)
      exact opens_inert ⟨Ne.symm h.1, hinert '%' (by decide), hinert '{' (by decide),
        hinert '}' (by decide)⟩ depth _

/-- A name that is escaped is neutral, as long as it has no backslash. -/
theorem neutral_escape {name : List Char} (h : '\\' ∉ name) : Neutral (escape name) :=
  nests_of_forall fun depth rest => by
    rw [Nat.zero_add]
    exact opens_escape h depth rest

/-- A name that is neutral once it is escaped is so however it is written. -/
theorem neutral_encode {name : String} (h : Neutral (escape name.toList)) (w : Wrapping) :
    Neutral (encode name w) := by
  have hupright : ∀ {body}, Neutral body → Neutral ("\\mathrm" ++ braced body) :=
    fun hb => neutral_command (nests_of_depthAfter (by decide)) hb
  unfold encode
  split
  next hv =>
    -- a name in characters of its own
    refine neutral_inert fun c hc => ?_
    unfold isVerbatim at hv
    rw [Bool.and_eq_true] at hv
    have hchar := List.all_eq_true.1 hv.2 c hc
    rw [Bool.and_eq_true, Bool.and_eq_true, decide_eq_true_iff] at hchar
    exact ⟨by rintro rfl; exact absurd hchar.1.1 (by decide),
      by rintro rfl; exact absurd hchar.1.1 (by decide),
      by rintro rfl; exact absurd hchar.1.1 (by decide),
      by rintro rfl; exact absurd hchar.1.1 (by decide)⟩
  next =>
    dsimp only
    split
    · cases hs : structured? name.toList w with
      | some body => exact neutral_structured? hs
      | none => exact hupright h
    · split
      next body hs =>
        have hwildcards : '\\' ∉ name.toList.takeWhile (· == '_') := by
          intro hm
          have hbar := List.all_eq_true.1 List.all_takeWhile _ hm
          exact absurd (beq_iff_eq.1 hbar) (by decide)
        refine hupright fun depth rest hrest => ?_
        rw [String.toList_append] at hrest ⊢
        rw [List.append_assoc, Nat.zero_add, opens_escape hwildcards]
        have hbody := neutral_structured? hs depth rest fun hends => hrest (hends.append _)
        rw [Nat.zero_add] at hbody
        exact hbody
      next => exact hupright h

end Name

/-! ## Numerals -/

namespace Numeral

open Lexer

/-- The parts of a numeral are made of digits, and the exponent may have a sign. -/
structure Digital (n : Numeral) : Prop where
  whole : ∀ c ∈ n.whole, c.isDigit = true
  fraction : ∀ c ∈ n.fraction, c.isDigit = true
  repeating : ∀ c ∈ n.repeating, c.isDigit = true
  exponent : ∀ c ∈ n.exponent, c.isDigit = true ∨ c = '-'

/-- A mantissa is read as digits. -/
theorem digital_of_readMantissa? {negative : Bool} {cs : List Char} {n : Numeral}
    (h : readMantissa? negative cs = some n) : n.Digital := by
  unfold readMantissa? at h
  generalize cut (· == '.') cs = parts at h
  obtain ⟨whole, after⟩ := parts
  obtain ⟨⟨fraction, repeating⟩, -, h⟩ := Option.bind_eq_some_iff.1 h
  dsimp only at h
  split at h
  next hd =>
    simp only [Bool.and_eq_true, areDigits, List.all_eq_true] at hd
    rw [← Option.some.inj h]
    exact ⟨hd.1.1.1, hd.1.1.2, hd.1.2, fun _ hc => absurd hc List.not_mem_nil⟩
  next => cases h

/-- An exponent is read as digits and a sign at most. -/
theorem digits_of_readExponent? {cs exponent : List Char} (h : readExponent? cs = some exponent) :
    ∀ c ∈ exponent, c.isDigit = true ∨ c = '-' := by
  unfold readExponent? at h
  dsimp only at h
  split at h
  next hd =>
    rw [Bool.and_eq_true, areDigits, List.all_eq_true] at hd
    rw [← Option.some.inj h]
    intro c hc
    -- a plus is gone by now, so at most a minus stands in front
    cases hcs : dropLeading '+' cs with
    | nil =>
      rw [hcs] at hc
      exact absurd hc List.not_mem_nil
    | cons d ds =>
      rw [hcs] at hc hd
      replace hd : _ ∧ ∀ x ∈ if d = '-' then ds else d :: ds, x.isDigit = true := hd
      split at hd
      next hsign =>
        -- the digits are those behind the sign
        rcases List.mem_cons.1 hc with rfl | hc
        · exact Or.inr hsign
        · exact Or.inl (hd.2 c hc)
      next => exact Or.inl (hd.2 c hc)
  next => cases h

/-- A numeral is read as digits, apart from a sign in the exponent. -/
theorem digital_of_read? {text : String} {n : Numeral} (h : read? text = some n) : n.Digital := by
  unfold read? at h
  obtain ⟨m, hm, h⟩ := Option.bind_eq_some_iff.1 h
  have hmantissa := digital_of_readMantissa? hm
  split at h
  · rw [← Option.some.inj h]
    exact hmantissa
  · obtain ⟨exponent, he, rfl⟩ := Option.map_eq_some_iff.1 h
    exact ⟨hmantissa.whole, hmantissa.fraction, hmantissa.repeating, digits_of_readExponent? he⟩

/-- Digits are neutral. -/
theorem neutral_digits {ds : List Char} (h : ∀ c ∈ ds, c.isDigit = true) :
    Neutral (String.ofList ds) := by
  refine neutral_inert fun c hc => ?_
  rw [String.toList_ofList] at hc
  exact inert_of_isDigit (h c hc)

/-- Groups of digits have no other characters than the digits. -/
theorem neutral_groupDigits {ds : List Char} (h : ∀ c ∈ ds, c.isDigit = true) (fromLeft : Bool) :
    Neutral (groupDigits ds {} fromLeft) := by
  have hthin : Neutral "\\," := nests_of_depthAfter (by decide)
  unfold groupDigits
  refine neutral_intercalate hthin (by decide) (by decide) (by decide) fun s hs => ?_
  obtain ⟨g, hg, rfl⟩ := List.mem_map.1 hs
  refine neutral_digits ?_
  by_cases hne : ds = []
  · subst hne
    have hg : g ∈ [([] : List Char)] := by
      unfold chunks chunksFromRight at hg
      simpa using hg
    rw [List.mem_singleton.1 hg]
    exact fun _ hc => absurd hc List.not_mem_nil
  · split at hg
    · exact (grouped_chunks hne).digits h hg
    · exact (grouped_chunksFromRight hne).digits h hg

/-- The whole part is neutral, grouped or not. -/
theorem Digital.neutral_wholeMarkup {n : Numeral} (h : n.Digital) :
    Neutral (n.wholeMarkup {}) := by
  refine neutral_groupDigits ?_ false
  split
  · exact fun c hc => List.mem_singleton.1 hc ▸ rfl
  · exact fun c hc => h.whole c ((List.dropWhile_sublist _).subset hc)

/-- The repeating part is neutral, and no control word runs on into it. -/
theorem Digital.neutral_repeatingMarkup {n : Numeral} (h : n.Digital) :
    Neutral (n.repeatingMarkup {}) ∧ extendsControlWord (n.repeatingMarkup {}) = false := by
  unfold repeatingMarkup
  dsimp only
  split
  · exact ⟨neutral_empty, rfl⟩
  · have hline : Neutral ("\\overline\x7b" ++ String.ofList n.repeating ++ "\x7d") :=
      neutral_around (nests_of_depthAfter (by decide)) (by decide) (neutral_digits h.repeating)
    refine ⟨hline, ?_⟩
    rw [String.append_assoc]
    exact extendsControlWord_append (by decide) (by decide) _

/-- The mantissa is neutral: the whole part, the fraction and the repeating part in a row. -/
theorem Digital.neutral_mantissaMarkup {n : Numeral} (h : n.Digital) :
    Neutral (n.mantissaMarkup {}) := by
  obtain ⟨hrepeating, hbegins⟩ := h.neutral_repeatingMarkup
  have hpoint : Neutral ("." ++ (groupDigits n.fraction {} true ++ n.repeatingMarkup {})) :=
    Nests.after (nests_of_depthAfter (by decide))
      ((neutral_groupDigits h.fraction true).before hrepeating hbegins) (by decide)
  -- without a fraction the point is left out, and nothing follows the whole part
  have hfraction : Neutral (if n.fraction.isEmpty && n.repeating.isEmpty then "" else
      "." ++ groupDigits n.fraction {} true ++ n.repeatingMarkup {}) ∧
      extendsControlWord (if n.fraction.isEmpty && n.repeating.isEmpty then "" else
        "." ++ groupDigits n.fraction {} true ++ n.repeatingMarkup {}) = false := by
    rw [String.append_assoc]
    split
    · exact ⟨neutral_empty, rfl⟩
    · exact ⟨hpoint, extendsControlWord_append (by decide) (by decide) _⟩
  unfold mantissaMarkup
  dsimp only
  rw [String.append_assoc]
  refine Nests.after ?_ (h.neutral_wholeMarkup.before hfraction.1 hfraction.2) ?_
  · split
    · exact nests_of_depthAfter (by decide)
    · exact neutral_empty
  · split <;> decide

/-- A numeral is neutral, in positional or in exponential notation. -/
theorem Digital.neutral_write {n : Numeral} (h : n.Digital) : Neutral (n.write {}) := by
  have hexponent : Neutral (String.ofList n.exponent) := by
    refine neutral_inert fun c hc => ?_
    rw [String.toList_ofList] at hc
    rcases h.exponent c hc with hd | rfl
    · exact inert_of_isDigit hd
    · decide
  -- no exponent, or a power of ten: alone, with a sign, or behind the mantissa
  unfold write
  dsimp only
  split
  · exact h.neutral_mantissaMarkup
  · unfold withExponent
    dsimp only
    split
    · exact neutral_around (nests_of_depthAfter (by decide)) (by decide) hexponent
    · split
      · exact neutral_around (nests_of_depthAfter (by decide)) (by decide) hexponent
      · have hpower : Neutral ("\\cdot10^\x7b" ++ String.ofList n.exponent ++ "\x7d") :=
          neutral_around (nests_of_depthAfter (by decide)) (by decide) hexponent
        rw [String.append_assoc] at hpower
        rw [String.append_assoc, String.append_assoc]
        exact h.neutral_mantissaMarkup.before hpower
          (extendsControlWord_append (by decide) (by decide) _)

/-- Every text that is rendered as a number is neutral. -/
theorem neutral_render {text markup : String} (h : render text {} = .ok markup) :
    Neutral markup := by
  unfold render at h
  by_cases hnan : text = "NaN"
  · rw [if_pos hnan] at h
    rw [← Except.ok.inj h]
    exact nests_of_depthAfter (by decide)
  rw [if_neg hnan] at h
  by_cases hpositive : text = "Infinity" ∨ text = "+Infinity"
  · rw [if_pos hpositive] at h
    rw [← Except.ok.inj h]
    exact nests_of_depthAfter (by decide)
  rw [if_neg hpositive] at h
  by_cases hnegative : text = "-Infinity"
  · rw [if_pos hnegative] at h
    rw [← Except.ok.inj h]
    exact nests_of_depthAfter (by decide)
  rw [if_neg hnegative] at h
  cases hn : read? text with
  | none =>
    rw [hn] at h
    cases h
  | some n =>
    rw [hn] at h
    rw [← Except.ok.inj h]
    exact (digital_of_read? hn).neutral_write

end Numeral

/-! ## Templates -/

namespace Template

open Lexer

/-- Wherever a text between two placeholders begins, it is neutral up to the next one. -/
def Fillable (template : List Char) : Prop :=
  ∀ s, s <:+ template → Neutral (String.ofList (s.takeWhile (· != '#')))

/-- The end of a fillable text is fillable. -/
theorem Fillable.suffix {s t : List Char} (h : Fillable t) (hs : s <:+ t) : Fillable s :=
  fun u hu => h u (hu.trans hs)

/-- What comes behind the text up to a hash is the hash. -/
theorem eq_hash_of_dropWhile {t rest : List Char} {c : Char}
    (h : t.dropWhile (· != '#') = c :: rest) : c = '#' := by
  have hhead := List.head?_dropWhile_not (· != '#') t
  rw [h] at hhead
  simpa using hhead

/-- What comes behind a hash is the end of the text. -/
theorem suffix_of_dropWhile {t rest : List Char} {c : Char}
    (h : t.dropWhile (· != '#') = c :: rest) : rest <:+ t := by
  have hs := List.dropWhile_suffix (· != '#') (l := t)
  rw [h] at hs
  exact (List.suffix_cons c rest).trans hs

theorem neutral_push_hash {s : String} (h : Neutral s) : Neutral (s.push '#') := by
  rw [← String.append_singleton]
  exact h.before (nests_of_depthAfter (by decide)) (by decide)

/-- An argument by its number is one of the arguments, or nothing. -/
theorem neutral_argument {args : List String} (h : ∀ a ∈ args, Neutral a) (n : Nat) :
    Neutral (argument args n) := by
  unfold argument
  cases ha : args[n - 1]? with
  | none => exact neutral_empty
  | some a => exact h a (List.mem_of_getElem? ha)

/-- Filling a neutral text with neutral arguments gives neutral markup. -/
theorem neutral_fillFrom {args : List String} (ha : ∀ a ∈ args, Neutral a) {written : String}
    (hw : Neutral written) {template : List Char} (ht : Fillable template) :
    Neutral (fillFrom args written template) := by
  fun_induction fillFrom args written template with
  | case1 => exact Nests.written hw (ht _ List.suffix_rfl)
  | case2 written template _ hash hrest =>
    rw [eq_hash_of_dropWhile hrest]
    exact neutral_push_hash (Nests.written hw (ht _ List.suffix_rfl))
  | case3 written template _ hash c rest hrest n _ _ ih =>
    rw [eq_hash_of_dropWhile hrest] at ih ⊢
    exact ih (neutral_push_hash (Nests.written hw (ht _ List.suffix_rfl)))
      (ht.suffix (suffix_of_dropWhile hrest))
  | case4 written template _ hash c rest hrest n _ _ ih =>
    exact ih (Nests.written (Nests.written hw (ht _ List.suffix_rfl)) (neutral_argument ha n))
      ((ht.suffix (suffix_of_dropWhile hrest)).suffix (List.suffix_cons c rest))
  | case5 written template _ hash c rest hrest _ ih =>
    rw [eq_hash_of_dropWhile hrest] at ih ⊢
    exact ih (neutral_push_hash (Nests.written hw (ht _ List.suffix_rfl)))
      (ht.suffix (suffix_of_dropWhile hrest))

/-- A template that can be filled, filled with neutral markup. -/
theorem neutral_fill {template : String} (ht : Fillable template.toList) {args : List String}
    (ha : ∀ a ∈ args, Neutral a) : Neutral (fill template args) :=
  neutral_fillFrom ha neutral_empty ht

end Template
end MathMarkup
