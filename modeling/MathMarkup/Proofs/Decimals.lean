import MathMarkup.Proofs.Numerals
import MathMarkup.Proofs.StandardScripts
import MathMarkup.Proofs.StringLiterals

/-!
# Decimal numerals

A numeral with a sign, a fraction and a repeating block is written with thin spaces between groups
of three digits on both sides of the point, and with the block under an overline. The point joins
the last group before it and the first one after it into one token (`fuse`), since the lexer takes a
point into a number if a digit follows. Before an overline it does not, and the parser finds the
point as a token of its own.

So every numeral comes back, whatever its length (`parse_render_number`). A minus sign is an
operator to the parser, whose routine puts it back into the text of the number.
-/

namespace MathMarkup

open MathMarkup.Lexer MathMarkup.Parser

namespace Numeral

/-- A numeral without an exponent and without needless zeros before the point. -/
structure Decimal (n : Numeral) : Prop where
  whole : Canonical n.whole
  fraction : ∀ c ∈ n.fraction, c.isDigit = true
  repeating : ∀ c ∈ n.repeating, c.isDigit = true
  exponent : n.exponent = []

/-! ## The text of a numeral -/

/-- What the text has after the digits of the fraction. -/
def repeatingText (n : Numeral) : List Char :=
  if n.repeating = [] then [] else '(' :: n.repeating ++ [')']

/-- What the text has after the whole part. -/
def fractionText (n : Numeral) : List Char :=
  if n.fraction = [] ∧ n.repeating = [] then [] else '.' :: n.fraction ++ n.repeatingText

/-- The text without a sign. -/
def unsignedText (n : Numeral) : List Char :=
  n.whole ++ n.fractionText

/-- The text of a numeral: a minus sign, the whole part, and after a point the digits of the
fraction and in parentheses those that repeat. -/
def text (n : Numeral) : String :=
  String.ofList (if n.negative then '-' :: n.unsignedText else n.unsignedText)

variable {n : Numeral}

/-- The text of a numeral is made of digits, a point and parentheses. -/
theorem mem_unsignedText (h : Decimal n) {c : Char} (hc : c ∈ n.unsignedText) :
    c.isDigit = true ∨ c ∈ ['.', '(', ')'] := by
  rcases List.mem_append.1 hc with hc | hc
  · exact Or.inl (h.whole.digits c hc)
  unfold fractionText at hc
  split at hc
  · exact absurd hc List.not_mem_nil
  rcases List.mem_cons.1 hc with rfl | hc
  · exact Or.inr (by decide)
  rcases List.mem_append.1 hc with hc | hc
  · exact Or.inl (h.fraction c hc)
  unfold repeatingText at hc
  split at hc
  · exact absurd hc List.not_mem_nil
  rcases List.mem_cons.1 hc with rfl | hc
  · exact Or.inr (by decide)
  rcases List.mem_append.1 hc with hc | hc
  · exact Or.inl (h.repeating c hc)
  · rw [List.mem_singleton.1 hc]
    exact Or.inr (by decide)

/-- The text begins with a digit after its sign. -/
theorem exists_unsignedText (h : Decimal n) : ∃ d cs, n.unsignedText = d :: cs ∧ d.isDigit = true := by
  obtain ⟨d, ds, hds⟩ := List.exists_cons_of_ne_nil h.whole.ne_nil
  refine ⟨d, ds ++ n.fractionText, ?_, h.whole.digits d ?_⟩
  · rw [unsignedText, hds, List.cons_append]
  · rw [hds]
    exact List.mem_cons_self

/-- Nothing else stands in the text of a numeral. -/
theorem not_mem_unsignedText (h : Decimal n) {c : Char} (hd : c.isDigit = false)
    (hc : c ∉ ['.', '(', ')']) : c ∉ n.unsignedText := by
  intro hm
  rcases mem_unsignedText h hm with hm | hm
  · rw [hd] at hm
    exact Bool.noConfusion hm
  · exact hc hm

/-! ## Reading the text -/

/-- A text is cut at its first mark. -/
theorem cut_append {isMark : Char → Bool} {cs : List Char} (h : ∀ c ∈ cs, isMark c = false)
    {m : Char} (hm : isMark m = true) (after : List Char) :
    cut isMark (cs ++ m :: after) = (cs, some after) := by
  have hcs : ∀ c ∈ cs, (!isMark c) = true := fun c hc => by rw [h c hc]; rfl
  have hm : ¬ (!isMark m) = true := by
    rw [hm]
    exact Bool.false_ne_true
  unfold cut
  rw [List.dropWhile_append_of_pos hcs, @List.dropWhile_cons_of_neg _ (!isMark ·) m after hm,
    List.takeWhile_append_of_pos hcs, @List.takeWhile_cons_of_neg _ (!isMark ·) m after hm,
    List.append_nil]

/-- A mark that is no digit is none of some digits. -/
theorem mark_of_digits {m : Char} (hm : m.isDigit = false) {ds : List Char}
    (h : ∀ c ∈ ds, c.isDigit = true) : ∀ c ∈ ds, (c == m) = false := by
  intro c hc
  rw [beq_eq_false_iff_ne]
  exact isDigit_of_ne (h c hc) hm

/-- The fraction of a numeral is read up to the parenthesis. -/
theorem readFraction?_text (h : Decimal n) :
    readFraction? (n.fraction ++ n.repeatingText) = some (n.fraction, n.repeating) := by
  have hmark := mark_of_digits (m := '(') rfl h.fraction
  unfold readFraction? repeatingText
  by_cases hr : n.repeating = []
  · rw [if_pos hr, List.append_nil, cut_of_digits hmark, hr]
  · rw [if_neg hr, List.cons_append, cut_append hmark (beq_self_eq_true '(')]
    dsimp only
    rw [closed?, List.getLast?_concat, if_pos (beq_self_eq_true _), List.dropLast_concat]
    rfl

/-- The mantissa of a numeral is read as its parts. -/
theorem readMantissa?_text (h : Decimal n) (negative : Bool) :
    readMantissa? negative n.unsignedText =
      some ⟨negative, n.whole, n.fraction, n.repeating, []⟩ := by
  have hmark := mark_of_digits (m := '.') rfl h.whole.digits
  have hparts : (areDigits n.whole && areDigits n.fraction && areDigits n.repeating &&
      !(n.whole.isEmpty && n.fraction.isEmpty && n.repeating.isEmpty)) = true := by
    have hne : n.whole.isEmpty = false := by
      rw [← Bool.not_eq_true, List.isEmpty_iff]
      exact h.whole.ne_nil
    rw [areDigits, areDigits, areDigits, List.all_eq_true.2 h.whole.digits,
      List.all_eq_true.2 h.fraction, List.all_eq_true.2 h.repeating, hne]
    rfl
  have hfraction := readFraction?_text h
  unfold readMantissa? unsignedText fractionText
  -- without a fraction no point is written, and none is found
  by_cases hp : n.fraction = [] ∧ n.repeating = []
  · rw [if_pos hp, List.append_nil, cut_of_digits hmark]
    show (readFraction? [] >>= _) = _
    rw [show readFraction? [] = some ([], []) from rfl]
    rw [hp.1, hp.2] at hparts ⊢
    show (if _ then _ else _) = _
    rw [if_pos hparts]
  · rw [if_neg hp, List.cons_append, cut_append hmark (beq_self_eq_true '.')]
    show (readFraction? (n.fraction ++ n.repeatingText) >>= _) = _
    rw [hfraction]
    show (if _ then _ else _) = _
    rw [if_pos hparts]

/-- The text is read as the numeral that it is the text of. -/
theorem read?_text (h : Decimal n) : read? n.text = some n := by
  obtain ⟨d, cs, hcs, hd⟩ := exists_unsignedText h
  have hexp : cut (fun c => c == 'e' || c == 'E') n.unsignedText = (n.unsignedText, none) := by
    refine cut_of_digits fun c hc => ?_
    rw [Bool.or_eq_false_iff, beq_eq_false_iff_ne, beq_eq_false_iff_ne]
    refine ⟨?_, ?_⟩
    · rintro rfl
      exact not_mem_unsignedText h rfl (by decide) hc
    · rintro rfl
      exact not_mem_unsignedText h rfl (by decide) hc
  -- the text begins with a digit, so no sign is taken off it
  have hsign : (n.unsignedText.head? == some '-') = false := by
    rw [hcs, List.head?_cons, beq_eq_false_iff_ne]
    exact fun he => isDigit_of_ne hd rfl (Option.some.inj he)
  have hplus : dropLeading '+' n.unsignedText = n.unsignedText := by
    rw [hcs, dropLeading, if_neg (isDigit_of_ne hd rfl)]
  have hmantissa := readMantissa?_text h n.negative
  have hn : (⟨n.negative, n.whole, n.fraction, n.repeating, []⟩ : Numeral) = n := by
    rw [← h.exponent]
  rw [hn] at hmantissa
  unfold read? text
  rw [String.toList_ofList]
  dsimp only
  cases hneg : n.negative with
  | false =>
    rw [if_neg Bool.false_ne_true, hsign, if_neg Bool.false_ne_true, hplus, hexp, ← hneg]
    dsimp only
    rw [hmantissa]
    rfl
  | true =>
    rw [if_pos rfl, show (('-' :: n.unsignedText).head? == some '-') = true from rfl, if_pos rfl,
      List.tail_cons, hexp, ← hneg]
    dsimp only
    rw [hmantissa]
    rfl

/-! ## Writing -/

/-- The markup of the repeating block. -/
def lineMarkup (n : Numeral) : String :=
  if n.repeating = [] then "" else "\\overline" ++ Name.braced (String.ofList n.repeating)

/-- The markup of a numeral without its sign. -/
def unsignedMarkup (n : Numeral) : String :=
  groupsMarkup (groups n.whole) ++
    if n.fraction = [] ∧ n.repeating = [] then ""
    else "." ++ groupsMarkup (chunks 3 n.fraction) ++ n.lineMarkup

/-- The text is none of the texts of infinite values. -/
theorem text_ne (h : Decimal n) {s : String} (hs : s.toList.any Char.isAlpha = true) :
    n.text ≠ s := by
  rintro rfl
  obtain ⟨c, hc, ha⟩ := List.any_eq_true.1 hs
  have hno : ∀ c ∈ n.unsignedText, ¬ c.isAlpha = true := by
    intro c hc ha
    have := Name.toNat_of_isAlpha ha
    rcases mem_unsignedText h hc with hd | hd
    · have := toNat_of_isDigit hd
      omega
    · simp only [List.mem_cons, List.not_mem_nil, or_false] at hd
      rcases hd with rfl | rfl | rfl <;> exact absurd ha (by decide)
  rw [text, String.toList_ofList] at hc
  split at hc
  · rcases List.mem_cons.1 hc with rfl | hc
    · exact absurd ha (by decide)
    · exact hno c hc ha
  · exact hno c hc ha

/-- The text of a numeral renders as its markup, with its sign. -/
theorem render_text (h : Decimal n) :
    render n.text {} = .ok ((if n.negative then "-" else "") ++ n.unsignedMarkup) := by
  have hwhole : n.wholeMarkup {} = groupsMarkup (groups n.whole) := by
    unfold wholeMarkup
    dsimp only
    rw [stripZeros_canonical h.whole]
    rfl
  have hline : n.repeatingMarkup {} = n.lineMarkup := by
    unfold repeatingMarkup lineMarkup
    by_cases hr : n.repeating = []
    · rw [if_pos hr, hr]
      rfl
    · rw [if_neg hr, if_neg (by rw [List.isEmpty_iff]; exact hr)]
      show "\\overline\x7b" ++ String.ofList n.repeating ++ "\x7d" = _
      rw [Name.braced, ← String.append_assoc, ← String.append_assoc]
      rfl
  have hwrite : n.write {} = n.mantissaMarkup {} := by
    unfold write
    rw [h.exponent]
    rfl
  unfold render
  rw [if_neg (text_ne h (by decide)), if_neg (not_or.2 ⟨text_ne h (by decide), text_ne h (by decide)⟩),
    if_neg (text_ne h (by decide)), read?_text h]
  dsimp only
  rw [hwrite, mantissaMarkup, hwhole, hline]
  unfold unsignedMarkup
  -- the point is left out only if nothing comes behind it
  by_cases hp : n.fraction = [] ∧ n.repeating = []
  · have hnone : (([] : List Char).isEmpty && ([] : List Char).isEmpty) = true := rfl
    rw [if_pos hp, hp.1, hp.2, if_pos hnone, String.append_empty, String.append_empty]
  · have hboth : ¬ (n.fraction.isEmpty && n.repeating.isEmpty) = true := by
      rw [Bool.and_eq_true, List.isEmpty_iff, List.isEmpty_iff]
      exact hp
    rw [if_neg hp, if_neg hboth, String.append_assoc]
    rfl

/-! ## Tokens -/

/-- Groups before a point and groups after it: the two beside the point become one. -/
def fuse : List (List Char) → List (List Char) → List (List Char)
  | [w], f :: fs => (w ++ '.' :: f) :: fs
  | g :: gs, fs => g :: fuse gs fs
  | [], fs => fs

/-- Groups are fused at the point only. -/
theorem fuse_cons (g : List Char) {gs : List (List Char)} (h : gs ≠ []) (fs : List (List Char)) :
    fuse (g :: gs) fs = g :: fuse gs fs := by
  obtain ⟨_, _, rfl⟩ := List.exists_cons_of_ne_nil h
  cases fs <;> rfl

/-- Fusing leaves a group. -/
theorem fuse_ne_nil {gs : List (List Char)} (h : gs ≠ []) (fs : List (List Char)) :
    fuse gs fs ≠ [] := by
  obtain ⟨g, gs, rfl⟩ := List.exists_cons_of_ne_nil h
  by_cases hgs : gs = []
  · subst hgs
    cases fs with
    | nil => exact List.cons_ne_nil _ _
    | cons f fs => exact List.cons_ne_nil _ _
  · rw [fuse_cons g hgs]
    exact List.cons_ne_nil _ _

/-- Fused groups read in a row as the numeral does. -/
theorem flatten_fuse {gs : List (List Char)} (h : gs ≠ []) (f : List Char)
    (fs : List (List Char)) :
    (fuse gs (f :: fs)).flatten = gs.flatten ++ '.' :: (f :: fs).flatten := by
  induction gs with
  | nil => exact absurd rfl h
  | cons g gs ih =>
    by_cases hgs : gs = []
    · subst hgs
      simp [fuse]
    · rw [fuse_cons g hgs, List.flatten_cons, ih hgs, @List.flatten_cons _ g gs, List.append_assoc]

/-- Digits in front of the first group. -/
theorem groupsMarkup_append (w f : List Char) (fs : List (List Char)) :
    groupsMarkup ((w ++ f) :: fs) = String.ofList w ++ groupsMarkup (f :: fs) := by
  by_cases hfs : fs = []
  · subst hfs
    show thinSpace.intercalate [_] = _ ++ thinSpace.intercalate [_]
    rw [String.intercalate_singleton, String.intercalate_singleton, String.ofList_append]
  · rw [groupsMarkup_cons _ hfs, groupsMarkup_cons _ hfs, String.ofList_append,
      String.append_assoc, String.append_assoc, String.append_assoc]

/-- Fused groups are written as the groups with the point between them. -/
theorem groupsMarkup_fuse {gs : List (List Char)} (h : gs ≠ []) (f : List Char)
    (fs : List (List Char)) :
    groupsMarkup (fuse gs (f :: fs)) = groupsMarkup gs ++ ("." ++ groupsMarkup (f :: fs)) := by
  induction gs with
  | nil => exact absurd rfl h
  | cons g gs ih =>
    by_cases hgs : gs = []
    · subst hgs
      show groupsMarkup ((g ++ (['.'] ++ f)) :: fs) = thinSpace.intercalate [_] ++ _
      rw [groupsMarkup_append, groupsMarkup_append, String.intercalate_singleton]
    · rw [fuse_cons g hgs, groupsMarkup_cons g hgs, groupsMarkup_cons g (fuse_ne_nil hgs _),
        ih hgs, String.append_assoc, String.append_assoc, String.append_assoc]

/-- Digits around a point are one token. -/
theorem numberText_point {w f : List Char} (hw : w ≠ []) (hwd : ∀ c ∈ w, c.isDigit = true)
    (hf : f ≠ []) (hfd : ∀ c ∈ f, c.isDigit = true) : NumberText (w ++ '.' :: f) where
  scan rest hr _ := by
    have hsplit := splitNumber?_point hwd hf hfd hr
    obtain ⟨d, ds, rfl⟩ := List.exists_cons_of_ne_nil hw
    exact scanFrom_number (hwd d List.mem_cons_self) hsplit
  head := by
    obtain ⟨d, ds, rfl⟩ := List.exists_cons_of_ne_nil hw
    exact ⟨d, _, rfl, hwd d List.mem_cons_self⟩

/-- The text up to the repeating block, and to the point if a digit follows it. -/
def mantissaText (n : Numeral) : List Char :=
  n.whole ++ if n.fraction = [] then [] else '.' :: n.fraction

/-- The groups of digits up to the repeating block. -/
def numberGroups (n : Numeral) : List (List Char) :=
  if n.fraction = [] then groups n.whole else fuse (groups n.whole) (chunks 3 n.fraction)

/-- The token of a point that no digit follows. -/
def pointToken : Token :=
  ⟨".", .char⟩

/-- The tokens of the repeating block. -/
def lineTokens (n : Numeral) : List Token :=
  if n.repeating = [] then []
  else [⟨"\\overline", .command⟩, leftBrace, groupToken n.repeating, rightBrace]

/-- The tokens after the groups: a point stands alone where the fraction has no other digits than
those that repeat. -/
def tailTokens (n : Numeral) : List Token :=
  if n.fraction = [] ∧ n.repeating ≠ [] then pointToken :: n.lineTokens else n.lineTokens

/-- The tokens of a numeral without its sign. -/
def unsignedTokens (n : Numeral) : List Token :=
  groupTokens n.numberGroups ++ n.tailTokens

/-- The whole part is cut into its groups. -/
theorem grouped_whole (h : Decimal n) : Grouped (groups n.whole) n.whole :=
  grouped_chunksFromRight h.whole.ne_nil

/-- A numeral has a group. -/
theorem numberGroups_ne_nil (h : Decimal n) : n.numberGroups ≠ [] := by
  unfold numberGroups
  split
  · exact (grouped_whole h).ne_nil
  · exact fuse_ne_nil (grouped_whole h).ne_nil _

/-- The groups of a numeral read in a row as its mantissa. -/
theorem flatten_numberGroups (h : Decimal n) : n.numberGroups.flatten = n.mantissaText := by
  unfold numberGroups mantissaText
  by_cases hf : n.fraction = []
  · rw [if_pos hf, if_pos hf, List.append_nil]
    exact (grouped_whole h).flatten
  · have hgrouped := @grouped_chunks 3 _ hf
    obtain ⟨f, fs, hfs⟩ := List.exists_cons_of_ne_nil hgrouped.ne_nil
    rw [if_neg hf, if_neg hf, hfs, flatten_fuse (grouped_whole h).ne_nil, (grouped_whole h).flatten,
      ← hfs, hgrouped.flatten]

/-- Groups that are fused at a point are numbers each. -/
theorem numberText_fuse {gs : List (List Char)} {f : List Char} {fs : List (List Char)}
    (hg : ∀ g ∈ gs, g ≠ [] ∧ ∀ c ∈ g, c.isDigit = true)
    (hf : ∀ g ∈ f :: fs, g ≠ [] ∧ ∀ c ∈ g, c.isDigit = true) :
    ∀ g ∈ fuse gs (f :: fs), NumberText g := by
  induction gs with
  | nil => exact fun g hm => numberText_digits (hf g hm).1 (hf g hm).2
  | cons w gs ih =>
    have hw := hg w List.mem_cons_self
    have hff := hf f List.mem_cons_self
    by_cases hgs : gs = []
    · subst hgs
      intro g hm
      rcases List.mem_cons.1 hm with rfl | hm
      · exact numberText_point hw.1 hw.2 hff.1 hff.2
      · have hd := hf g (List.mem_cons_of_mem f hm)
        exact numberText_digits hd.1 hd.2
    · rw [fuse_cons w hgs]
      intro g hm
      rcases List.mem_cons.1 hm with rfl | hm
      · exact numberText_digits hw.1 hw.2
      · exact ih (fun g hm => hg g (List.mem_cons_of_mem w hm)) g hm

/-- The groups of a numeral are numbers each. -/
theorem numberText_numberGroups (h : Decimal n) : ∀ g ∈ n.numberGroups, NumberText g := by
  have hwhole : ∀ g ∈ groups n.whole, g ≠ [] ∧ ∀ c ∈ g, c.isDigit = true := fun g hg =>
    ⟨(grouped_whole h).group g hg, (grouped_whole h).digits h.whole.digits hg⟩
  unfold numberGroups
  by_cases hf : n.fraction = []
  · rw [if_pos hf]
    exact fun g hg => numberText_digits (hwhole g hg).1 (hwhole g hg).2
  · have hgrouped := @grouped_chunks 3 _ hf
    have hfraction : ∀ g ∈ chunks 3 n.fraction, g ≠ [] ∧ ∀ c ∈ g, c.isDigit = true := fun g hg =>
      ⟨hgrouped.group g hg, hgrouped.digits h.fraction hg⟩
    obtain ⟨f, fs, hfs⟩ := List.exists_cons_of_ne_nil hgrouped.ne_nil
    rw [hfs] at hfraction
    rw [if_neg hf, hfs]
    exact numberText_fuse hwhole hfraction

/-- The markup up to the repeating block is that of the groups, and of the point if it stands
alone. -/
theorem unsignedMarkup_eq (h : Decimal n) : n.unsignedMarkup =
    groupsMarkup n.numberGroups ++
      ((if n.fraction = [] ∧ n.repeating ≠ [] then "." else "") ++ n.lineMarkup) := by
  unfold unsignedMarkup numberGroups
  by_cases hf : n.fraction = []
  · by_cases hr : n.repeating = []
    · rw [if_pos ⟨hf, hr⟩, if_pos hf, if_neg (fun hp => hp.2 hr), lineMarkup, if_pos hr,
        String.empty_append]
    · rw [if_neg (fun hp => hr hp.2), if_pos hf, if_pos ⟨hf, hr⟩, hf]
      rw [show groupsMarkup (chunks 3 []) = "" from by rw [chunks]; rfl, String.append_empty]
  · have hgrouped := @grouped_chunks 3 _ hf
    obtain ⟨f, fs, hfs⟩ := List.exists_cons_of_ne_nil hgrouped.ne_nil
    rw [if_neg (fun hp => hf hp.1), if_neg hf, if_neg (fun hp => hf hp.1), hfs,
      groupsMarkup_fuse (grouped_whole h).ne_nil, String.empty_append]
    simp only [String.append_assoc]

/-! ## Cutting the markup -/

/-- The block under its overline. -/
theorem scans_lineMarkup (h : Decimal n) : Scans n.lineMarkup n.lineTokens := by
  unfold lineMarkup lineTokens
  by_cases hr : n.repeating = []
  · rw [if_pos hr, if_pos hr]
    exact scans_empty
  · have hgroup : Scans (String.ofList n.repeating) [groupToken n.repeating] := by
      have hscan := scans_groups (List.cons_ne_nil n.repeating []) fun g hg => by
        rw [List.mem_singleton.1 hg]
        exact ⟨hr, h.repeating⟩
      rw [groupsMarkup, List.map_singleton, String.intercalate_singleton] at hscan
      exact hscan
    obtain ⟨hw, hk⟩ := controlWord_of_isSign (w := "\\overline") (by decide)
    rw [if_neg hr, if_neg hr]
    refine (scans_controlWord hw hk).append hgroup.braced ?_
    rw [Name.braced, String.append_assoc]
    exact stops_braced _

/-- An overline stops the number in front of it. -/
theorem stops_lineMarkup (n : Numeral) : Stops n.lineMarkup.toList := by
  unfold lineMarkup
  split
  · exact fun _ hc => absurd hc (by simp)
  · intro c hc
    rw [String.toList_append] at hc
    rw [← Option.some.inj hc]
    decide

/-- A point with no digit behind it is no fraction. -/
theorem fractionDigits_point {cs : List Char} (h : ∀ c ∈ cs.head?, c.isDigit = false) :
    fractionDigits ('.' :: cs) = [] := by
  cases cs with
  | nil => rfl
  | cons c cs => exact List.takeWhile_cons_of_neg (by rw [h c rfl]; exact Bool.false_ne_true)

/-- A point is a token of its own where no digit follows. -/
theorem scanFrom_point {cs : List Char} (h : ∀ c ∈ cs.head?, c.isDigit = false) :
    scanFrom .math ('.' :: cs) = pointToken :: scanFrom .math cs := by
  have hnone : splitNumber? ('.' :: cs) = none := by
    unfold splitNumber?
    rw [show ('.' :: cs).takeWhile Char.isDigit = [] from rfl,
      show ('.' :: cs).dropWhile Char.isDigit = '.' :: cs from rfl]
    dsimp only
    rw [fractionDigits_point h]
    rfl
  have hskip : skipIgnored false ('.' :: cs) = '.' :: cs := rfl
  refine scanFrom_of_next ?_
  simp [next?, mathToken?, hskip, hnone, pointToken]

/-- A numeral without its sign is cut into its groups and what comes after them. -/
theorem scans_unsigned (h : Decimal n) : Scans n.unsignedMarkup n.unsignedTokens := by
  have hne := numberGroups_ne_nil h
  have hnumber := numberText_numberGroups h
  rw [unsignedMarkup_eq h, unsignedTokens, tailTokens]
  by_cases hp : n.fraction = [] ∧ n.repeating ≠ []
  · -- no digit follows the point, so the lexer leaves it alone
    rw [if_pos hp, if_pos hp]
    have hline := scans_lineMarkup h
    have hhead : ∀ rest, ∀ c ∈ (n.lineMarkup.toList ++ rest).head?, c.isDigit = false := by
      intro rest c hc
      rw [lineMarkup, if_neg hp.2, String.toList_append] at hc
      rw [← Option.some.inj hc]
      rfl
    refine ⟨fun rest hr => ?_, kept_append (kept_groups hne hnumber)
      (kept_append (kept_of_not_mem (t := pointToken) (by decide)) hline.kept)⟩
    rw [String.toList_append, String.toList_append, List.append_assoc, List.append_assoc]
    show scanFrom .math ((groupsMarkup n.numberGroups).toList ++
      '.' :: (n.lineMarkup.toList ++ rest)) = _
    rw [scanFrom_groups hne hnumber (fun c hc => by rw [← Option.some.inj hc]; rfl)
      (fractionDigits_point (hhead rest)), scanFrom_point (hhead rest), hline.scan rest hr,
      List.append_assoc]
    rfl
  · rw [if_neg hp, if_neg hp, String.empty_append]
    exact (scans_numberTexts hne hnumber).append (scans_lineMarkup h) (stops_lineMarkup n)

/-! ## Reading the tokens -/

/-- The tokens of the overline are read as the repeating part. -/
theorem overlined?_lineTokens (h : Decimal n) (hr : n.repeating ≠ []) :
    overlined? n.lineTokens = some (String.ofList n.repeating) := by
  have hall : (String.ofList n.repeating).toList.all Char.isDigit = true := by
    rw [String.toList_ofList, List.all_eq_true]
    exact h.repeating
  rw [lineTokens, if_neg hr]
  exact if_pos ⟨rfl, rfl, rfl, rfl, hall⟩

/-- The repeating block is found after the groups, with the point before it or in them. -/
theorem repeatingPart?_tailTokens (h : Decimal n) :
    repeatingPart? (!n.fraction.isEmpty) n.tailTokens =
      if n.repeating = [] then none else some (String.ofList n.repeating, n.tailTokens.length) := by
  by_cases hr : n.repeating = []
  · have htail : n.tailTokens = [] := by
      rw [tailTokens, if_neg (fun hp => hp.2 hr), lineTokens, if_pos hr]
    rw [htail, if_pos hr]
    cases n.fraction <;> rfl
  · -- the block takes four tokens: the command, its braces and the digits
    have hlength : n.lineTokens.length = 4 := by
      rw [lineTokens, if_neg hr]
      rfl
    rw [if_neg hr]
    by_cases hf : n.fraction = []
    · have htail : n.tailTokens = pointToken :: n.lineTokens := by
        rw [tailTokens, if_pos ⟨hf, hr⟩]
      rw [htail, hf, List.length_cons, hlength]
      show (overlined? n.lineTokens).map (·, 5) = _
      rw [overlined?_lineTokens h hr]
      rfl
    · have htail : n.tailTokens = n.lineTokens := by
        rw [tailTokens, if_neg (fun hp => hf hp.1)]
      obtain ⟨c, cs, hcs⟩ := List.exists_cons_of_ne_nil hf
      rw [htail, hcs, hlength]
      show (overlined? n.lineTokens).map (·, 4) = _
      rw [overlined?_lineTokens h hr]
      rfl

/-- Without a repeating part, the text is the mantissa. -/
theorem unsignedText_of_none (hr : n.repeating = []) : n.unsignedText = n.mantissaText := by
  rw [unsignedText, mantissaText, fractionText, repeatingText, if_pos hr, List.append_nil]
  by_cases hf : n.fraction = []
  · rw [if_pos ⟨hf, hr⟩, if_pos hf]
  · rw [if_neg (fun hp => hf hp.1), if_neg hf]

/-- With a repeating part, the text is the mantissa with it in parentheses. -/
theorem unsignedText_of_repeating (hr : n.repeating ≠ []) :
    String.ofList n.unsignedText =
      (if (!n.fraction.isEmpty) = true then String.ofList n.mantissaText
        else String.ofList n.mantissaText ++ ".") ++ "(" ++ String.ofList n.repeating ++ ")" := by
  refine String.toList_inj.1 ?_
  rw [unsignedText, mantissaText, fractionText, repeatingText, if_neg hr,
    if_neg (fun hp => hr hp.2)]
  by_cases hf : n.fraction = []
  · simp [hf]
  · simp [hf]

/-- The groups of digits are read back. -/
theorem digitGroups_unsignedTokens (h : Decimal n) : digitGroups n.unsignedTokens =
    (n.numberGroups.map String.ofList, (groupTokens n.numberGroups).length) := by
  refine digitGroups_groupTokens (numberGroups_ne_nil h) fun u hu => ?_
  unfold tailTokens lineTokens at hu
  split at hu
  · rw [← Option.some.inj hu]
    decide
  · split at hu
    · exact absurd hu (by simp)
    · rw [← Option.some.inj hu]
      decide

/-- The groups are joined again, and the text needs no zero in front. -/
theorem join_numberGroups (h : Decimal n) :
    withLeadingZero (String.join (n.numberGroups.map String.ofList)) =
      String.ofList n.mantissaText := by
  obtain ⟨d, ds, hds⟩ := List.exists_cons_of_ne_nil h.whole.ne_nil
  have hd := h.whole.digits d (by rw [hds]; exact List.mem_cons_self)
  rw [join_groups, flatten_numberGroups h, withLeadingZero, String.toList_ofList, mantissaText,
    hds, List.cons_append, List.head?_cons, if_neg]
  rw [beq_iff_eq]
  exact fun he => isDigit_of_ne hd rfl (Option.some.inj he)

/-- The mantissa has a point exactly if there is a fraction. -/
theorem contains_point_mantissaText (h : Decimal n) :
    n.mantissaText.contains '.' = !n.fraction.isEmpty := by
  have hwhole : n.whole.contains '.' = false := by
    rw [← Bool.not_eq_true, List.contains_iff_mem]
    exact fun hm => isDigit_of_ne (h.whole.digits _ hm) rfl rfl
  rw [mantissaText, List.contains_append, hwhole]
  cases n.fraction <;> rfl

/-- The tokens are read as the text without its sign. -/
theorem numeral_apply (h : Decimal n) (behind : List Token) (depth deepest : Nat) :
    numeral ⟨behind, n.unsignedTokens, [], depth, deepest, false⟩ =
      (.number (String.ofList n.unsignedText),
        ⟨n.unsignedTokens.reverse ++ behind, [], [], depth, deepest, false⟩) := by
  -- the groups are consumed first, and then what comes after them
  have hadvance : Reading.advance (groupTokens n.numberGroups).length
      ⟨behind, n.unsignedTokens, [], depth, deepest, false⟩ =
      ((), ⟨(groupTokens n.numberGroups).reverse ++ behind, n.tailTokens, [], depth, deepest,
        false⟩) := by
    show ((), Parser.mk ((n.unsignedTokens.take _).reverse ++ behind) (n.unsignedTokens.drop _)
      [] depth deepest false) = _
    rw [unsignedTokens, List.take_left, List.drop_left]
  unfold numeral
  rw [Reading.get_bind_apply]
  dsimp only
  rw [digitGroups_unsignedTokens h]
  dsimp only
  rw [join_numberGroups h, String.toList_ofList, contains_point_mantissaText h, Reading.bind_apply,
    hadvance, Reading.get_bind_apply]
  dsimp only
  rw [repeatingPart?_tailTokens h]
  by_cases hr : n.repeating = []
  · have htail : n.tailTokens = [] := by
      rw [tailTokens, if_neg (fun hp => hp.2 hr), lineTokens, if_pos hr]
    rw [if_pos hr]
    show (Expr.number (String.ofList n.mantissaText), Parser.mk _ n.tailTokens [] depth deepest
      false) = _
    rw [unsignedTokens, htail, List.append_nil, unsignedText_of_none hr]
  · rw [if_neg hr]
    show (Expr.number _, Parser.mk ((n.tailTokens.take n.tailTokens.length).reverse ++ _)
      (n.tailTokens.drop n.tailTokens.length) [] depth deepest false) = _
    rw [List.take_length, List.drop_length, unsignedText_of_repeating hr, unsignedTokens,
      List.reverse_append, List.append_assoc]

/-! ## The round trip -/

open MathMarkup.Nested MathMarkup.Reading
open MathMarkup.Lexicon.Arithmetic (parseNegate negated)

variable {ix : Index} {inner : Nested}

/-- The tokens of a numeral begin with a number. -/
theorem head_unsignedTokens (h : Decimal n) :
    ∃ g ts, NumberText g ∧ n.unsignedTokens = groupToken g :: ts := by
  obtain ⟨g, ts, hg, hts⟩ := head?_groupTokens (numberGroups_ne_nil h)
  exact ⟨g, ts ++ n.tailTokens, numberText_numberGroups h g hg, by rw [unsignedTokens, hts]; rfl⟩

/-- The tokens of a numeral are read as the number with its text. -/
theorem primary_unsignedTokens (h : Decimal n) (m : Precedence) (behind : List Token)
    (depth deepest : Nat) :
    primary ix inner m ⟨behind, n.unsignedTokens, [], depth, deepest, false⟩ =
      (some (.number (String.ofList n.unsignedText)),
        ⟨n.unsignedTokens.reverse ++ behind, [], [], depth, deepest, false⟩) := by
  obtain ⟨g, ts, -, hts⟩ := head_unsignedTokens h
  have hnumber : primary ix inner m ⟨behind, n.unsignedTokens, [], depth, deepest, false⟩ =
      (numeral >>= fun e => pure (some e)) ⟨behind, n.unsignedTokens, [], depth, deepest, false⟩ := by
    rw [Parser.primary, peek_bind_apply, hts]
    rfl
  rw [hnumber, bind_apply, numeral_apply h, pure_apply]

/-- Without a matchfix entry for what comes next, none is read. -/
theorem matchfix_apply_none {p : Parser} (h : ix.lookup .matchfix (Token.raws p.ahead) = []) :
    matchfix ix inner p = (none, p) := by
  show firstOf (tryMatchfix inner) (ix.lookup .matchfix (Token.raws p.ahead)) p = _
  rw [h]
  rfl

/-- A minus sign and its operand. -/
theorem prefixOperation_apply {p q : Parser} {entry : IndexedEntry} {a : Expr}
    {m precedence : Precedence}
    (hl : ix.lookup .prefixOp (Token.raws p.ahead) = [(1, entry)])
    (hp : entry.precedence? = some precedence) (hparse : entry.parse = some parseNegate)
    (h : inner.expression (precedence.tighter.tighterOf m) (p.advance 1) = (some a, q)) :
    prefixOperation ix inner m p = (some (negated a), q) := by
  -- from the routine to the one operator that is found, and from there to all operators
  have hrun : runHandler inner parseNegate none (precedence.tighter.tighterOf m) (p.advance 1) =
      (some (negated a), q) := by
    show (inner.expression (precedence.tighter.tighterOf m) >>= fun o =>
      pure (some (negated (o.getD Expr.missing)))) (p.advance 1) = _
    rw [bind_apply, h]
    rfl
  have htry : tryPrefixOp inner m (1, entry) p = (some (negated a), q) := by
    unfold tryPrefixOp
    dsimp only
    rw [hp]
    dsimp only
    rw [hparse]
    exact rewinding_of_some hrun
  show firstOf (tryPrefixOp inner m) (ix.lookup .prefixOp (Token.raws p.ahead)) p = _
  rw [hl, firstOf, bind_apply, htry]
  rfl

/-- A minus sign before an operand that is read up to the end. -/
theorem primary_minus {p q : Parser} {entry : IndexedEntry} {a : Expr} {m precedence : Precedence}
    (hahead : p.ahead.head? = some Standard.minus)
    (hm : ix.lookup .matchfix (Token.raws p.ahead) = [])
    (hl : ix.lookup .prefixOp (Token.raws p.ahead) = [(1, entry)])
    (hp : entry.precedence? = some precedence) (hparse : entry.parse = some parseNegate)
    (h : inner.expression (precedence.tighter.tighterOf m) (p.advance 1) = (some a, q)) :
    primary ix inner m p = (some (negated a), q) := by
  have hfrom : primaryFrom ix inner m Standard.minus = firstOf id [matchfix ix inner, pure none,
      prefixOperation ix inner m, symbol ix inner] := rfl
  rw [Parser.primary, peek_bind_apply, hahead]
  show primaryFrom ix inner m Standard.minus p = _
  rw [hfrom, firstOf, bind_apply, id, matchfix_apply_none hm]
  show firstOf id [prefixOperation ix inner m, symbol ix inner] p = _
  rw [firstOf, bind_apply, id, prefixOperation_apply hl hp hparse h]
  rfl

/-- A negative numeral is a negation to the parser, and its text has the sign again. -/
theorem negated_unsignedText (h : Decimal n) :
    negated (.number (String.ofList n.unsignedText)) =
      .number (String.ofList ('-' :: n.unsignedText)) := by
  obtain ⟨d, cs, hcs, hd⟩ := exists_unsignedText h
  have hsign : ¬ ((String.ofList n.unsignedText).toList.head? == some '-') = true := by
    rw [String.toList_ofList, hcs, List.head?_cons, beq_iff_eq]
    exact fun he => isDigit_of_ne hd rfl (Option.some.inj he)
  unfold negated
  dsimp only
  rw [if_neg hsign]
  exact congrArg Expr.number (String.toList_inj.1 (by simp))

/-- Every numeral is parsed back from its rendering. -/
theorem parse_render_number (h : Decimal n) (canonical : Bool) :
    let t : Transcoder := {}
    (t.parse (t.render (.number n.text) canonical).1).1 = .number n.text := by
  intro t
  have hrender : (t.render (.number n.text) canonical).1 =
      (if n.negative then "-" else "") ++ n.unsignedMarkup := by
    have hr : (Standard.renderer canonical).Renders (.number n.text) _ :=
      Renderer.renders_number (render_text h)
    show ((Standard.renderer canonical).render (.number n.text) 0 []).1 = _
    rw [hr 0]
    rfl
  have hscan := scans_unsigned h
  rw [hrender, Standard.parse_eq, Standard.reading, text]
  cases hneg : n.negative with
  | false =>
    rw [if_neg Bool.false_ne_true, if_neg Bool.false_ne_true, String.empty_append, hscan.ofTokens]
    exact Literal.parseAll_of_primary Standard.arranged rfl rfl
      (primary_unsignedTokens h .loosest [] 2 2) rfl rfl
  | true =>
    -- the sign is a prefix operator, and the digits after it are its operand
    have hsigned : Scans ("-" ++ n.unsignedMarkup) (Standard.minus :: n.unsignedTokens) :=
      hscan.cons (c := '-') (by decide) (by decide)
    rw [if_pos rfl, if_pos rfl, hsigned.ofTokens]
    obtain ⟨f, hf⟩ := Standard.exists_negate
    obtain ⟨-, hc⟩ := Standard.clear_prefixOp hf.mem hf.name hf.kind
    have hnext : ∀ u ∈ (Token.raws n.unsignedTokens).head?, u ∉ Standard.goingOn := by
      obtain ⟨g, ts, hg, hts⟩ := head_unsignedTokens h
      intro u hu
      rw [hts] at hu
      rw [← Option.some.inj hu]
      exact hg.not_mem (by decide)
    have hnone := hc.lookup_other List.mem_cons_self hnext
    have hfound := hc.lookup hf.mem hf.usable rfl hnext
    rw [hf.trigger] at hnone hfound
    have hoperand := Literal.expression_of_primary (n := 252) (m := (275 : Precedence).tighter)
      (p := ⟨[Standard.minus], n.unsignedTokens, [], 2, 2, false⟩) Standard.arranged
      (show 2 + 2 ≤ maxDepth by decide) rfl (primary_unsignedTokens h _ [Standard.minus] 4 4) rfl
    rw [← negated_unsignedText h]
    exact Literal.parseAll_of_primary Standard.arranged rfl rfl
      (primary_minus rfl hnone hfound rfl (by simp only [Entry.indexed, hf.parse]) hoperand) rfl rfl

/-- A long negative numeral with a fraction and a repeating block. -/
def sampleNumeral : Numeral :=
  { negative := true, whole := "1234567".toList, fraction := "0012".toList,
    repeating := "142857".toList, exponent := [] }

theorem parse_render_sampleNumeral :
    sampleNumeral.Decimal ∧ sampleNumeral.text = "-1234567.0012(142857)" ∧
    let t : Transcoder := {}
    (t.render (.number sampleNumeral.text) true).1 =
      "-1\\,234\\,567.001\\,2\\overline\x7b142857\x7d" ∧
    (t.parse (t.render (.number sampleNumeral.text) true).1).1 =
      .number "-1234567.0012(142857)" := by
  have h : sampleNumeral.Decimal :=
    ⟨by decide, List.all_eq_true.1 (by decide), List.all_eq_true.1 (by decide), rfl⟩
  have htext : sampleNumeral.text = "-1234567.0012(142857)" := by decide
  have hback := parse_render_number h true
  refine ⟨h, htext, by decide +kernel, ?_⟩
  rw [← htext]
  exact hback

end Numeral
end MathMarkup
