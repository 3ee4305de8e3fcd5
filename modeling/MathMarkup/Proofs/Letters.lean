import MathMarkup.Proofs.Legible
import MathMarkup.Proofs.Names

/-!
# Letters of any script

A letter beyond ASCII is a token of its own as well. Those that are the character of a named symbol
are names spelled another way, and the renderer writes such a name as its command
(`Name.writtenToken`). All others stand for themselves: they are written as they are read, and are
read as they are written.
-/

namespace MathMarkup

open MathMarkup.Lexer MathMarkup.Parser

namespace Name

/-- A letter of any script that is written as it stands. -/
structure PlainLetter (c : Char) : Prop where
  letter : isLetter c = true
  unnamed : symbolOfChar? c = none

theorem plainLetter_of_isAlpha {c : Char} (h : c.isAlpha = true) : PlainLetter c where
  letter := by
    have := toNat_of_isAlpha h
    rw [isLetter, if_pos (by omega)]
    exact h
  unnamed := symbolOfChar?_of_isAlpha h

/-- A letter is an ASCII letter or beyond ASCII. -/
theorem isAlpha_or_of_isLetter {c : Char} (h : isLetter c = true) :
    c.isAlpha = true ∨ 128 ≤ c.toNat := by
  by_cases hn : c.toNat < 128
  · rw [isLetter, if_pos hn] at h
    exact Or.inl h
  · exact Or.inr (by omega)

/-- The code points of blanks. -/
def blanks : List Nat :=
  List.range' 9 5 ++ List.range' 0x2000 11 ++
    [0x20, 0x85, 0xa0, 0x1680, 0x2028, 0x2029, 0x202f, 0x205f, 0x3000]

theorem isBlank_of_isLetter {c : Char} (h : isLetter c = true) : isBlank c = false := by
  -- there are few blanks, and letters are none of them
  have hall : ∀ n ∈ blanks, isLetter (Char.ofNat n) = false := by decide +kernel
  rw [← Bool.not_eq_true]
  intro hb
  have hmem : c.toNat ∈ blanks := by
    unfold isBlank at hb
    simp only [Bool.or_eq_true, Bool.and_eq_true, decide_eq_true_iff, beq_iff_eq] at hb
    simp only [blanks, List.mem_append, List.mem_range'_1, List.mem_cons, List.not_mem_nil]
    omega
  have := hall _ hmem
  rw [Char.ofNat_toNat, h] at this
  exact Bool.noConfusion this

/-- A letter is none of the characters of ASCII that are no letters. -/
theorem ne_of_isLetter {c d : Char} (h : isLetter c = true) (hd : d.toNat < 128)
    (ha : d.isAlpha = false) : c ≠ d := by
  rintro rfl
  rcases isAlpha_or_of_isLetter h with hc | hc
  · rw [hc] at ha
    exact Bool.noConfusion ha
  · omega

/-- A letter is a token by itself. -/
theorem lone_of_isLetter {c : Char} (h : isLetter c = true) : Lone c where
  blank := isBlank_of_isLetter h
  comment := ne_of_isLetter h (by decide) rfl
  command := ne_of_isLetter h (by decide) rfl
  digit := by
    rw [← Bool.not_eq_true]
    intro hd
    have := toNat_of_isDigit hd
    rcases isAlpha_or_of_isLetter h with hc | hc
    · have := toNat_of_isAlpha hc
      omega
    · omega
  point := ne_of_isLetter h (by decide) rfl

theorem loneToken_of_isLetter {c : Char} (h : isLetter c = true) :
    loneToken c = letterToken c := by
  unfold loneToken loneKind letterToken
  rw [if_neg (by rw [beq_iff_eq]; exact ne_of_isLetter h (by decide) rfl),
    if_neg (by rw [beq_iff_eq]; exact ne_of_isLetter h (by decide) rfl)]

/-- No text of the list begins with a letter. -/
theorem not_mem_of_isLetter {c : Char} (h : isLetter c = true) {texts : List String}
    (ht : texts.all fun s => s.toList.head?.all fun d => d.toNat < 128 && !d.isAlpha) :
    String.ofList [c] ∉ texts := by
  intro hm
  have hc := List.all_eq_true.1 ht _ hm
  rw [String.toList_ofList, List.head?_cons, Option.all_some, Bool.and_eq_true,
    decide_eq_true_iff, Bool.not_eq_true'] at hc
  exact ne_of_isLetter h hc.1 hc.2 rfl

theorem scans_letter {c : Char} (h : isLetter c = true) :
    Scans (String.ofList [c]) [letterToken c] := by
  rw [← loneToken_of_isLetter h]
  exact scans_lone (lone_of_isLetter h) (not_mem_of_isLetter h (by decide))

/-- The name that a letter spells: that of the symbol it is, if it is one. -/
def letterName (c : Char) : String :=
  match symbolOfChar? c with
  | some s => s.name
  | none => String.ofList [c]

/-- A plain letter is named by itself. -/
theorem PlainLetter.letterName_eq {c : Char} (h : PlainLetter c) :
    letterName c = String.ofList [c] := by
  rw [letterName, h.unnamed]

/-- A token as it is written again: a character that is a named symbol as the command of the
symbol. -/
def writtenToken (t : Token) : Token :=
  match t.raw.toList with
  | [c] =>
    match symbolOfChar? c with
    | some s => ⟨s.command, .command⟩
    | none => t
  | _ => t

/-- A letter with a symbol of its own is written as the command of the symbol. -/
theorem writtenToken_letterToken (c : Char) :
    writtenToken (letterToken c) =
      match symbolOfChar? c with
      | some s => ⟨s.command, .command⟩
      | none => letterToken c := by
  unfold writtenToken
  rw [show (letterToken c).raw.toList = [c] from String.toList_ofList]

/-- A plain letter is written as the token that it is. -/
theorem PlainLetter.writtenToken_eq {c : Char} (h : PlainLetter c) :
    writtenToken (letterToken c) = letterToken c := by
  rw [writtenToken_letterToken, h.unnamed]

/-- A control word is written as it is. -/
theorem writtenToken_controlWord {w : String} (hw : ControlWord w) :
    writtenToken ⟨w, .command⟩ = ⟨w, .command⟩ := by
  obtain ⟨cs, hne, -, hl⟩ := hw.letters
  obtain ⟨c, rest, rfl⟩ := List.exists_cons_of_ne_nil hne
  rw [writtenToken, hl]

/-- A letter is read as the name that it spells. -/
theorem identifier?_letterToken {c : Char} (h : isLetter c = true) (us : List Token) :
    identifier? (letterToken c :: us) = some (letterName c, 1) := by
  refine identifier?_char ?_ us
  unfold charName? letterName
  rw [String.toList_ofList]
  dsimp only
  by_cases ha : c.isAlpha = true
  · rw [if_pos ha, symbolOfChar?_of_isAlpha ha]
  · have hn := (isAlpha_or_of_isLetter h).resolve_left ha
    rw [if_neg ha, h, Bool.true_or, Bool.and_true, decide_eq_true hn]
    exact if_pos rfl

theorem splitDigits_letter {c : Char} (h : isLetter c = true) : splitDigits [c] = ([c], []) := by
  have hd := (lone_of_isLetter h).digit
  simp [splitDigits, hd]

theorem signMarkup?_letter {c : Char} (h : PlainLetter c) : signMarkup? [c] = none := by
  have hall : symbolWords.all fun s => s.1.toList.length != 1 := by decide
  have hword : symbolWords.lookup (String.ofList [c]) = none := by
    refine List.lookup_eq_none_iff.2 fun s hs => ?_
    have hone := List.all_eq_true.1 hall s hs
    rw [bne_iff_ne] at hone ⊢
    rintro heq
    exact hone (by rw [← heq, String.toList_ofList]; rfl)
  unfold signMarkup?
  dsimp only
  rw [h.unnamed, hword]
  rfl

/-- A plain letter is written as itself. -/
theorem baseMarkup?_letter {c : Char} (h : PlainLetter c) :
    baseMarkup? [c] false = some (String.ofList [c]) := by
  have hnamed : symbolNamed? (String.ofList [c]) = none := by
    have hall : namedSymbols.all fun s => s.name.toList.length != 1 := by decide
    refine List.find?_eq_none.2 fun s hs heq => ?_
    have hone := List.all_eq_true.1 hall s hs
    rw [bne_iff_ne] at hone
    exact hone (by rw [beq_iff_eq.1 heq, String.toList_ofList]; rfl)
  have hword : [c].all isWordChar = true := by
    rw [List.all_cons, List.all_nil, Bool.and_true, isWordChar, h.letter, Bool.true_or]
  unfold baseMarkup?
  dsimp only
  rw [hnamed, signMarkup?_letter h, hword, if_pos rfl]
  cases digitWords.lookup (String.ofList [c]) <;> rfl

/-- A plain letter is written as it stands. -/
theorem encode_plainLetter {c : Char} (h : PlainLetter c) :
    encode (String.ofList [c]) .auto = String.ofList [c] := by
  -- the name is one part, a base that is one token, so no group is put around it
  have hbar : c ≠ '_' := ne_of_isLetter h.letter (by decide) rfl
  have hverbatim : isVerbatim (String.ofList [c]) = false := by
    unfold isVerbatim
    rw [String.toList_ofList, List.all_cons, isWordChar, h.letter, Bool.true_or, Bool.not_true,
      Bool.and_false, Bool.false_and, Bool.false_and, Bool.and_false]
  have hpart : readPart [c] = (⟨[c], [], []⟩, []) := by
    simp [readPart, hbar, modifiers_nil]
  have hstructured : structured? [c] .auto = some (Wrapping.auto.apply (String.ofList [c])) := by
    unfold structured?
    rw [hpart]
    dsimp only
    rw [splitDigits_letter h.letter]
    dsimp only
    rw [Part.accented?, show (!List.isEmpty ([] : List Typeface)) = false from rfl,
      baseMarkup?_letter h, scripts?_nil]
    rfl
  have hcount : countTokens (String.ofList [c]) = 1 := by
    rw [countTokens, (scans_letter h.letter).scan_eq]
    exact countUnits_letters [c]
  unfold encode
  rw [hverbatim, if_neg Bool.false_ne_true]
  dsimp only
  rw [String.toList_ofList, @List.takeWhile_cons_of_neg _ (· == '_') c []
    (by rw [beq_iff_eq]; exact hbar), List.isEmpty_nil, if_pos rfl, hstructured, Option.getD_some]
  show (if 1 < countTokens (String.ofList [c]) then _ else _) = _
  rw [hcount, if_neg (by decide)]

/-- The commands of named symbols are control words, are not spacing, and are what the names are
written as. -/
theorem writes_namedSymbols : ∀ s ∈ namedSymbols, ControlWord s.command ∧ s.command ∉ spacing ∧
    encode s.name .auto = s.command := by
  have hletters : ∀ s ∈ namedSymbols, s.command.toList.tail ≠ [] ∧
      s.command.toList = '\\' :: s.command.toList.tail ∧
      s.command.toList.tail.all Char.isAlpha = true := by decide
  have htext : ∀ s ∈ namedSymbols, s.command ∉ Token.textCommands := by decide
  have hspacing : ∀ s ∈ namedSymbols, s.command ∉ spacing := by decide
  have hencode : ∀ s ∈ namedSymbols, encode s.name .auto = s.command := by decide +kernel
  intro s hs
  obtain ⟨hne, hcons, hall⟩ := hletters s hs
  exact ⟨⟨⟨_, hne, List.all_eq_true.1 hall, hcons⟩, htext s hs⟩, hspacing s hs, hencode s hs⟩

/-- The name of a letter is written as one token. -/
theorem encode_letterName {c : Char} (h : isLetter c = true) :
    encode (letterName c) .auto = (writtenToken (letterToken c)).raw ∧
      Scans (writtenToken (letterToken c)).raw [writtenToken (letterToken c)] := by
  rw [writtenToken_letterToken, letterName]
  cases hs : symbolOfChar? c with
  | none => exact ⟨encode_plainLetter ⟨h, hs⟩, scans_letter h⟩
  | some s =>
    obtain ⟨hword, hspacing, hencode⟩ := writes_namedSymbols s (List.mem_of_find?_eq_some hs)
    exact ⟨hencode, scans_controlWord hword hspacing⟩

end Name

namespace Parser

/-- A letter that begins no trigger is read as the name that it spells. -/
theorem legible_letterName {ix : Index} {c : Char} (hc : isLetter c = true)
    (hl : ∀ kind us, ix.lookup kind (String.ofList [c] :: us) = []) :
    Legible ix (.symbol (Name.letterName c)) (String.ofList [c]) [Name.letterToken c]
      65536 65536 extending where
  scans := Name.scans_letter hc
  begins := by
    have hne := Name.not_mem_of_isLetter hc (show [")", "="].all _ from by decide)
    exact ⟨_, [], rfl, TokenKind.noConfusion, fun h => hne (h ▸ List.mem_cons_self),
      fun h => hne (h ▸ List.mem_cons_of_mem _ List.mem_cons_self)⟩
  opens m _ := by
    refine opens_name ?_ (fun us => hl .matchfix _) (fun us => hl .prefixOp _)
      (fun us => hl .identifier _) fun us => Name.identifier?_letterToken hc us
    have hne := Name.not_mem_of_isLetter hc (show ["\\begin"].all _ from by decide)
    exact ⟨TokenKind.noConfusion, TokenKind.noConfusion, TokenKind.noConfusion,
      fun h => TokenKind.noConfusion h.1, fun h => hne (h ▸ List.mem_cons_self)⟩
  own_le := Nat.le_refl _

end Parser
end MathMarkup
