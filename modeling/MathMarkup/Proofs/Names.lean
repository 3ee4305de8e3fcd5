import MathMarkup.Name.Decode
import MathMarkup.Name.Encode
import MathMarkup.Proofs.Scan

/-!
# Letters and words as names

A letter is written as it stands, and a word of several letters upright, unless the word spells a
known symbol. Both are read back as the names they were.
-/

namespace MathMarkup
namespace Name

open Lexer

/-! ## Letters -/

theorem toNat_of_isAlpha {c : Char} (h : c.isAlpha = true) :
    65 ≤ c.toNat ∧ c.toNat ≤ 90 ∨ 97 ≤ c.toNat ∧ c.toNat ≤ 122 := by
  unfold Char.isAlpha Char.isUpper Char.isLower at h
  rw [Bool.or_eq_true, Bool.and_eq_true, decide_eq_true_iff, decide_eq_true_iff,
    decide_eq_true_iff] at h
  exact h

/-- A letter is a token by itself. -/
theorem lone_of_isAlpha {c : Char} (h : c.isAlpha = true) : Lone c := by
  have hn := toNat_of_isAlpha h
  have hne : ∀ d : Char, d.isAlpha = false → c ≠ d := by
    rintro d hd rfl
    rw [h] at hd
    exact Bool.noConfusion hd
  refine ⟨isBlank_of_visible (by omega) (by omega), hne _ rfl, hne _ rfl, ?_, hne _ rfl⟩
  rw [← Bool.not_eq_true]
  intro hd
  have := toNat_of_isDigit hd
  omega

/-- The token that a letter makes. -/
def letterToken (c : Char) : Token :=
  ⟨String.ofList [c], .char⟩

theorem loneToken_of_isAlpha {c : Char} (h : c.isAlpha = true) : loneToken c = letterToken c := by
  have hne : ∀ d : Char, d.isAlpha = false → c ≠ d := by
    rintro d hd rfl
    rw [h] at hd
    exact Bool.noConfusion hd
  unfold loneToken loneKind letterToken
  rw [if_neg (by rw [beq_iff_eq]; exact hne '{' rfl), if_neg (by rw [beq_iff_eq]; exact hne '}' rfl)]

/-- No text of the list begins with a letter. -/
theorem not_mem_of_letter {c : Char} (h : c.isAlpha = true) {texts : List String}
    (ht : texts.all fun s => s.toList.head?.all fun d => !d.isAlpha) : String.ofList [c] ∉ texts := by
  intro hm
  have := List.all_eq_true.1 ht _ hm
  rw [String.toList_ofList] at this
  simp [h] at this

/-- Letters are scanned one by one. -/
theorem scans_letters {cs : List Char} (h : ∀ c ∈ cs, c.isAlpha = true) :
    Scans (String.ofList cs) (cs.map letterToken) := by
  induction cs with
  | nil => exact scans_empty
  | cons c cs ih =>
    have hc := h c List.mem_cons_self
    have hcons := (ih fun d hd => h d (List.mem_cons_of_mem _ hd)).cons (lone_of_isAlpha hc)
      (not_mem_of_letter hc (by decide))
    rw [← String.ofList_append] at hcons
    rw [List.map_cons, ← loneToken_of_isAlpha hc]
    exact hcons

/-- Each letter is a unit. -/
theorem countUnits_letters (cs : List Char) : Token.countUnits (cs.map letterToken) = cs.length := by
  suffices h : ∀ absorbing, Token.countUnitsFrom 0 absorbing (cs.map letterToken) = cs.length from
    h false
  induction cs with
  | nil => exact fun _ => rfl
  | cons c cs ih =>
    intro absorbing
    show 1 + Token.countUnitsFrom 0 _ (cs.map letterToken) = cs.length + 1
    rw [ih, Nat.add_comm]

/-! ## Writing -/

/-- What keeps a word from being a name of its own: it spells a known symbol. -/
structure PlainWord (cs : List Char) : Prop where
  letters : ∀ c ∈ cs, c.isAlpha = true
  named : symbolNamed? (String.ofList cs) = none
  sign : symbolWords.lookup (String.ofList cs) = none

/-- ASCII letters and digits are characters of words. -/
theorem isWordChar_of_ascii {c : Char} (h : c.isAlpha = true ∨ c.isDigit = true) :
    isWordChar c = true := by
  have hn : c.toNat < 128 := by
    rcases h with h | h
    · have := toNat_of_isAlpha h
      omega
    · have := toNat_of_isDigit h
      omega
  rw [isWordChar, isLetter, isNumeral, if_pos hn, if_pos hn, Bool.or_eq_true]
  exact h

theorem symbolOfChar?_of_isAlpha {c : Char} (h : c.isAlpha = true) : symbolOfChar? c = none := by
  have hall : namedSymbols.all fun s => !s.char.isAlpha := by decide
  refine List.find?_eq_none.2 fun s hs heq => ?_
  have := List.all_eq_true.1 hall s hs
  rw [beq_iff_eq.1 heq, h] at this
  exact absurd this (by decide)

/-- A plain word is no sign. -/
theorem signMarkup?_of_plain {cs : List Char} (h : PlainWord cs) : signMarkup? cs = none := by
  unfold signMarkup?
  dsimp only
  rw [h.sign]
  split
  · rw [symbolOfChar?_of_isAlpha (h.letters _ List.mem_cons_self)]
    rfl
  · rfl

/-- A plain word is written as it is. -/
theorem baseMarkup?_of_plain {cs : List Char} (h : PlainWord cs) :
    baseMarkup? cs false = some (String.ofList cs) := by
  have hall : cs.all isWordChar = true :=
    List.all_eq_true.2 fun c hc => isWordChar_of_ascii (Or.inl (h.letters c hc))
  unfold baseMarkup?
  dsimp only
  rw [h.named, signMarkup?_of_plain h, hall, if_pos rfl]
  cases digitWords.lookup (String.ofList cs) <;> rfl

theorem modifiers_nil {α : Type} (find? : String → Option α) : modifiers find? [] = ([], []) := by
  rw [modifiers]
  rfl

theorem scripts?_nil : scripts? [] = some ⟨[], [], []⟩ := by
  rw [scripts?]
  all_goals exact fun _ h => absurd h (by simp)

theorem splitDigits_letters {cs : List Char} (hne : cs ≠ []) (h : ∀ c ∈ cs, c.isAlpha = true) :
    splitDigits cs = (cs, []) := by
  obtain ⟨d, ds, hr⟩ := List.exists_cons_of_ne_nil (List.reverse_ne_nil_iff.2 hne)
  have hdigit : ¬ d.isDigit = true := by
    have hm : d ∈ cs := by
      rw [← List.mem_reverse, hr]
      exact List.mem_cons_self
    rw [(lone_of_isAlpha (h d hm)).digit]
    exact Bool.false_ne_true
  unfold splitDigits
  dsimp only
  rw [hr, List.takeWhile_cons_of_neg hdigit, List.dropWhile_cons_of_neg hdigit, ← hr,
    List.reverse_reverse, if_neg (by rw [List.isEmpty_iff]; exact hne)]
  rfl

/-- A plain word is written without marks, in its typeface. -/
theorem structured?_of_plain {cs : List Char} (hne : cs ≠ []) (h : PlainWord cs) (w : Wrapping) :
    structured? cs w = some (w.apply (String.ofList cs)) := by
  have hbar : ∀ c ∈ cs, (c != '_') = true := by
    intro c hc
    rw [bne_iff_ne]
    rintro rfl
    exact absurd (h.letters '_' hc) (by decide)
  have ht := @List.takeWhile_append_of_pos _ (· != '_') cs [] hbar
  have hd := @List.dropWhile_append_of_pos _ (· != '_') cs [] hbar
  rw [List.append_nil, List.takeWhile_nil, List.append_nil] at ht
  rw [List.append_nil, List.dropWhile_nil] at hd
  -- there is no underscore, so all of it is the base, and nothing is left for modifiers and scripts
  have hpart : readPart cs = (⟨cs, [], []⟩, []) := by
    unfold readPart
    dsimp only
    rw [ht, hd, modifiers_nil]
    dsimp only
    rw [modifiers_nil]
  unfold structured?
  rw [hpart]
  dsimp only
  rw [splitDigits_letters hne h.letters]
  dsimp only
  rw [Part.accented?]
  rw [show (!List.isEmpty ([] : List Typeface)) = false from rfl, baseMarkup?_of_plain h,
    scripts?_nil]
  rfl

/-- A name that begins with a letter has no underscores in front. -/
theorem encode_of_letter {c : Char} (hc : c.isAlpha = true) (cs : List Char) (w : Wrapping) :
    encode (String.ofList (c :: cs)) w = (structured? (c :: cs) w).getD (escaped (c :: cs)) := by
  have hn := toNat_of_isAlpha hc
  have hverbatim : isVerbatim (String.ofList (c :: cs)) = false := by
    unfold isVerbatim
    rw [String.toList_ofList, List.all_cons, decide_eq_false (by omega), Bool.false_and,
      Bool.false_and, Bool.false_and, Bool.and_false]
  have hbar : ¬ (c == '_') = true := by
    rw [beq_iff_eq]
    rintro rfl
    exact absurd hc (by decide)
  unfold encode
  rw [hverbatim, if_neg Bool.false_ne_true]
  dsimp only
  rw [String.toList_ofList, @List.takeWhile_cons_of_neg _ (· == '_') c cs hbar, List.isEmpty_nil,
    if_pos rfl]

/-- A word is written upright, and a letter as it stands. -/
theorem encode_word {cs : List Char} (hne : cs ≠ []) (h : PlainWord cs) :
    encode (String.ofList cs) .auto =
      if 1 < cs.length then "\\mathrm" ++ braced (String.ofList cs) else String.ofList cs := by
  obtain ⟨c, rest, rfl⟩ := List.exists_cons_of_ne_nil hne
  have hcount : countTokens (String.ofList (c :: rest)) = (c :: rest).length := by
    rw [countTokens, (scans_letters h.letters).scan_eq, countUnits_letters]
  rw [encode_of_letter (h.letters c List.mem_cons_self), structured?_of_plain hne h,
    Option.getD_some]
  show (if 1 < countTokens (String.ofList (c :: rest)) then _ else _) = _
  rw [hcount]

theorem plainWord_letter {c : Char} (h : c.isAlpha = true) : PlainWord [c] where
  letters := by
    intro d hd
    rw [List.mem_singleton.1 hd]
    exact h
  named := by
    have hall : namedSymbols.all fun s => s.name.toList.length != 1 := by decide
    refine List.find?_eq_none.2 fun s hs heq => ?_
    have := List.all_eq_true.1 hall s hs
    rw [beq_iff_eq.1 heq, String.toList_ofList] at this
    exact absurd this (show ¬ (1 != 1) = true by decide)
  sign := by
    have hall : symbolWords.all fun s => s.1.toList.length != 1 := by decide
    refine List.lookup_eq_none_iff.2 fun s hs => ?_
    have := List.all_eq_true.1 hall s hs
    rw [bne_iff_ne]
    intro heq
    rw [← heq, String.toList_ofList] at this
    exact absurd this (show ¬ (1 != 1) = true by decide)

/-- A letter is encoded as itself. -/
theorem encode_letter {c : Char} (h : c.isAlpha = true) :
    encode (String.ofList [c]) .auto = String.ofList [c] :=
  encode_word (List.cons_ne_nil c []) (plainWord_letter h)

/-! ## Reading -/

/-- A character that is a name takes no other token. -/
theorem identifier?_char {raw name : String} (h : charName? raw = some name) (us : List Token) :
    identifier? (⟨raw, .char⟩ :: us) = some (name, 1) := by
  unfold identifier? readIdentifier?
  show (Option.map _ ((charName? raw).map _)) = _
  rw [h]
  show some (name, us.length + 1 - us.length) = _
  rw [Nat.add_sub_cancel_left]

/-- A letter is read as the name that it is. -/
theorem identifier?_letter {c : Char} (h : c.isAlpha = true) (us : List Token) :
    identifier? (letterToken c :: us) = some (String.ofList [c], 1) := by
  refine identifier?_char ?_ us
  unfold charName?
  rw [String.toList_ofList]
  dsimp only
  rw [h, if_pos rfl]

/-- Letters extend a base that has no modifiers. -/
theorem body?_letters {cs : List Char} (h : ∀ c ∈ cs, c.isAlpha = true) (base : String)
    (us : List Token) :
    body? { base } (cs.map letterToken ++ us) = body? { base := base ++ String.ofList cs } us := by
  induction cs generalizing base with
  | nil => rw [List.map_nil, List.nil_append, String.ofList_nil, String.append_empty]
  | cons c cs ih =>
    have hne := not_mem_of_letter (h c List.mem_cons_self) (show ["_", "^"].all _ from by decide)
    have hunder : (letterToken c).raw ≠ "_" := fun hu => hne (hu ▸ List.mem_cons_self)
    have hcaret : (letterToken c).raw ≠ "^" := fun hu =>
      hne (hu ▸ List.mem_cons_of_mem _ List.mem_cons_self)
    rw [List.map_cons, List.cons_append, body?]
    show (if (letterToken c).raw = "_" then _ else if (letterToken c).raw = "^" then _ else _) = _
    rw [if_neg hunder, if_neg hcaret]
    show body? { base := base ++ String.ofList [c] } (cs.map letterToken ++ us) = _
    rw [ih (fun d hd => h d (List.mem_cons_of_mem c hd)), String.append_assoc,
      ← String.ofList_append]
    rfl

theorem splitClose?_letters (cs : List Char) (us : List Token) :
    splitClose? 0 (cs.map letterToken ++ rightBrace :: us) = some (cs.map letterToken, us) := by
  induction cs with
  | nil => rfl
  | cons c cs ih =>
    show (splitClose? 0 (cs.map letterToken ++ rightBrace :: us)).map _ = _
    rw [ih]
    rfl

/-- The tokens of an upright word. -/
def wordTokens (cs : List Char) : List Token :=
  ⟨"\\mathrm", .command⟩ :: (leftBrace :: cs.map letterToken ++ [rightBrace])

/-- An upright word scans to its letters between braces. -/
theorem scans_word {cs : List Char} (h : ∀ c ∈ cs, c.isAlpha = true) :
    Scans ("\\mathrm" ++ braced (String.ofList cs)) (wordTokens cs) := by
  obtain ⟨hw, hk⟩ := controlWord_of_isSign (w := "\\mathrm") (by decide)
  refine (scans_controlWord hw hk).append (scans_letters h).braced ?_
  rw [braced, String.append_assoc]
  exact stops_braced _

/-- An upright word of several letters is read as the word. -/
theorem identifier?_word {cs : List Char} (h : ∀ c ∈ cs, c.isAlpha = true) (hlen : 1 < cs.length)
    (us : List Token) :
    identifier? (wordTokens cs ++ us) = some (String.ofList cs, (wordTokens cs).length) := by
  have htokens : wordTokens cs ++ us =
      ⟨"\\mathrm", .command⟩ :: leftBrace :: (cs.map letterToken ++ rightBrace :: us) := by
    simp [wordTokens]
  have hgroup : group? (leftBrace :: (cs.map letterToken ++ rightBrace :: us)) =
      some (cs.map letterToken, us) := splitClose?_letters cs us
  have hbody : body? {} (cs.map letterToken) = some { base := String.ofList cs } := by
    have hletters := body?_letters h "" []
    rw [List.append_nil, String.empty_append, body?] at hletters
    exact hletters
  -- a word of several letters is told apart by its length, so no typeface is added
  have hstyled : styled? "\\mathrm" (cs.map letterToken) (body? {} (cs.map letterToken)) =
      some { base := String.ofList cs } := by
    rw [hbody]
    show (if (true && (decide (1 < Token.countUnits (cs.map letterToken)) || _)) = true then _ else _)
      = _
    rw [countUnits_letters, decide_eq_true hlen]
    rfl
  have hread : readIdentifier? (wordTokens cs ++ us) = some (String.ofList cs, us) := by
    rw [htokens]
    show ((group? (leftBrace :: (cs.map letterToken ++ rightBrace :: us))).bind fun r =>
      (styled? "\\mathrm" r.1 (body? {} r.1)).bind fun parts => some (parts.name, r.2)) = _
    rw [hgroup, Option.bind_some, hstyled, Option.bind_some]
    show some (String.ofList cs ++ "" ++ "" ++ "", us) = _
    rw [String.append_empty, String.append_empty, String.append_empty]
  rw [identifier?, hread, Option.map_some, List.length_append, Nat.add_sub_cancel]

end Name
end MathMarkup
