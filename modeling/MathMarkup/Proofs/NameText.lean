import MathMarkup.Proofs.Names

/-!
# Names in words

A regular name is a base with words behind underscores: a part, then superscripts behind two
underscores and subscripts behind one, each of them a part again; a part is a base with its accents
and then its typefaces (`Composite.text`). What can follow a part is never one of its own modifiers,
so the parts are found again in the name (`readPart_text`, `scripts?_text`), and what the name is
written as can be said part by part (`Composite.encode_text`).
-/

namespace MathMarkup
namespace Name

open Lexer

/-! ## The names -/

/-- Words, each behind an underscore. -/
def wordsBehind (words : List String) : List Char :=
  words.flatMap fun w => '_' :: w.toList

/-- A part in words. -/
def Part.text (p : Part) : List Char :=
  p.base ++ wordsBehind (p.accents.map (·.name)) ++ wordsBehind (p.typefaces.map (·.name))

/-- A part with its scripts. -/
structure Composite where
  part : Part
  above : List Part
  below : List Part

/-- A name in words: superscripts stand behind two underscores, and subscripts behind one. -/
def Composite.text (n : Composite) : List Char :=
  n.part.text ++ n.above.flatMap (fun p => '_' :: '_' :: p.text) ++
    n.below.flatMap (fun p => '_' :: p.text)

/-- A word of ASCII letters. -/
structure Word (cs : List Char) : Prop where
  ne_nil : cs ≠ []
  letters : ∀ c ∈ cs, c.isAlpha = true

/-- A number in digits. -/
structure Digits (cs : List Char) : Prop where
  ne_nil : cs ≠ []
  digits : ∀ c ∈ cs, c.isDigit = true

/-- Typefaces that are not read back as what they are: two share their command with another one, and
a name of several units is upright anyway. -/
def ambiguousTypefaces : List String := ["upright", "blackboard", "gothic"]

/-- A part whose modifiers are known, and whose base is no word for a digit or for something that
looks like an operator. -/
structure Part.Modified (p : Part) : Prop where
  accents : ∀ a ∈ p.accents, a ∈ Name.accents
  typefaces : ∀ t ∈ p.typefaces, t ∈ Name.typefaces ∧ t.name ∉ ambiguousTypefaces
  sign : symbolWords.lookup (String.ofList p.base) = none
  digit : digitWords.lookup (String.ofList p.base) = none

/-- A part that can stand in a script: its base is a word that is not taken for a modifier of what
the script is on, or a number, which has no typeface. -/
structure Part.Script (p : Part) : Prop extends p.Modified where
  base : (Word p.base ∧ accentNamed? (String.ofList p.base) = none ∧
      typefaceNamed? (String.ofList p.base) = none) ∨
    (Digits p.base ∧ p.typefaces = [])

/-- A name that comes apart in one way. -/
structure Composite.Regular (n : Composite) : Prop where
  part : n.part.Modified
  base : Word n.part.base
  above : ∀ p ∈ n.above, p.Script
  below : ∀ p ∈ n.below, p.Script

instance (cs : List Char) : Decidable (Word cs) :=
  decidable_of_iff (cs ≠ [] ∧ cs.all Char.isAlpha = true)
    ⟨fun h => ⟨h.1, List.all_eq_true.1 h.2⟩, fun h => ⟨h.ne_nil, List.all_eq_true.2 h.letters⟩⟩

instance (cs : List Char) : Decidable (Digits cs) :=
  decidable_of_iff (cs ≠ [] ∧ cs.all Char.isDigit = true)
    ⟨fun h => ⟨h.1, List.all_eq_true.1 h.2⟩, fun h => ⟨h.ne_nil, List.all_eq_true.2 h.digits⟩⟩

instance (p : Part) : Decidable p.Modified :=
  decidable_of_iff ((∀ a ∈ p.accents, a ∈ accents) ∧
      (∀ t ∈ p.typefaces, t ∈ typefaces ∧ t.name ∉ ambiguousTypefaces) ∧
      symbolWords.lookup (String.ofList p.base) = none ∧
      digitWords.lookup (String.ofList p.base) = none)
    ⟨fun h => ⟨h.1, h.2.1, h.2.2.1, h.2.2.2⟩,
      fun h => ⟨h.accents, h.typefaces, h.sign, h.digit⟩⟩

instance (p : Part) : Decidable p.Script :=
  decidable_of_iff (p.Modified ∧ ((Word p.base ∧ accentNamed? (String.ofList p.base) = none ∧
      typefaceNamed? (String.ofList p.base) = none) ∨ (Digits p.base ∧ p.typefaces = [])))
    ⟨fun h => ⟨h.1, h.2⟩, fun h => ⟨h.toModified, h.base⟩⟩

instance (n : Composite) : Decidable n.Regular :=
  decidable_of_iff (n.part.Modified ∧ Word n.part.base ∧ (∀ p ∈ n.above, p.Script) ∧
      (∀ p ∈ n.below, p.Script))
    ⟨fun h => ⟨h.1, h.2.1, h.2.2.1, h.2.2.2⟩, fun h => ⟨h.part, h.base, h.above, h.below⟩⟩

/-! ## Reading the words -/

/-- Text that ends a word: there is none, or an underscore comes next. -/
def Breaks (cs : List Char) : Prop :=
  ∀ c ∈ cs.head?, c = '_'

/-- Text that does not go on with a modifier of some sort. -/
def Quiet {α : Type} (find? : String → Option α) (cs : List Char) : Prop :=
  ∀ word rest, modifier? cs = some (word, rest) → find? word = none

theorem breaks_cons (cs : List Char) : Breaks ('_' :: cs) :=
  fun _ hc => (Option.some.inj hc).symm

/-- Words behind underscores break off a word in front of them. -/
theorem breaks_wordsBehind (words : List String) {rest : List Char} (hr : Breaks rest) :
    Breaks (wordsBehind words ++ rest) := by
  cases words with
  | nil => exact hr
  | cons w ws => exact breaks_cons _

/-- A word behind an underscore is a modifier. -/
theorem modifier?_word {w : String} (hw : Word w.toList) {rest : List Char} (hr : Breaks rest) :
    modifier? ('_' :: (w.toList ++ rest)) = some (w, rest) := by
  have hhead : ∀ c ∈ rest.head?, c.isAlpha = false := fun c hc => by
    rw [hr c hc]
    rfl
  obtain ⟨ht, hd⟩ := takeWhile_append_of_head hw.letters hhead
  obtain ⟨c, cs, hcs⟩ := List.exists_cons_of_ne_nil hw.ne_nil
  rw [modifier?, ht, hd, hcs]
  dsimp only
  rw [← hcs, String.ofList_toList]

/-- Where no modifier comes, none is read. -/
theorem modifiers_of_quiet {α : Type} {find? : String → Option α} {cs : List Char}
    (h : Quiet find? cs) : modifiers find? cs = ([], cs) := by
  rw [modifiers]
  split
  next word rest hm =>
    rw [h word rest hm]
  next => rfl

/-- The modifiers of one sort are read to the last. -/
theorem modifiers_words {α : Type} (find? : String → Option α) (name : α → String) {as : List α}
    (hfind : ∀ a ∈ as, find? (name a) = some a ∧ Word (name a).toList) {rest : List Char}
    (hr : Breaks rest) (hq : Quiet find? rest) :
    modifiers find? (wordsBehind (as.map name) ++ rest) = (as, rest) := by
  induction as with
  | nil => exact modifiers_of_quiet hq
  | cons a as ih =>
    obtain ⟨ha, hw⟩ := hfind a List.mem_cons_self
    have hmodifier := modifier?_word hw (breaks_wordsBehind (as.map name) hr)
    have hsplit : wordsBehind ((a :: as).map name) ++ rest =
        '_' :: ((name a).toList ++ (wordsBehind (as.map name) ++ rest)) := by
      simp only [wordsBehind, List.map_cons, List.flatMap_cons, List.cons_append,
        List.append_assoc]
    rw [hsplit, modifiers]
    split
    next word rest' hm =>
      obtain ⟨rfl, rfl⟩ := Prod.mk.inj (Option.some.inj (hmodifier.symm.trans hm))
      rw [ha, ih fun b hb => hfind b (List.mem_cons_of_mem a hb)]
    next hm =>
      rw [hmodifier] at hm
      exact absurd hm (by simp)

/-- A first word that is no modifier keeps the others from being read. -/
theorem quiet_word {α : Type} {find? : String → Option α} {w : String} (hw : Word w.toList)
    (hf : find? w = none) {rest : List Char} (hr : Breaks rest) :
    Quiet find? ('_' :: (w.toList ++ rest)) := by
  intro word rest' hm
  rw [modifier?_word hw hr] at hm
  rw [← (Prod.mk.inj (Option.some.inj hm)).1]
  exact hf

/-- Behind an underscore there must be a letter for a modifier. -/
theorem quiet_of_head {α : Type} (find? : String → Option α) {cs : List Char}
    (h : ∀ c ∈ cs.head?, c.isAlpha = false) : Quiet find? ('_' :: cs) := by
  intro word rest hm
  have ht : cs.takeWhile Char.isAlpha = [] := by
    cases cs with
    | nil => rfl
    | cons c cs => rw [List.takeWhile_cons_of_neg (by rw [h c rfl]; exact Bool.false_ne_true)]
  rw [modifier?, ht] at hm
  exact absurd hm (by simp)

theorem quiet_nil {α : Type} (find? : String → Option α) : Quiet find? [] :=
  fun _ _ hm => absurd hm (by simp [modifier?])

/-! ## The tables -/

theorem word_of_all {w : String} (h : (!w.toList.isEmpty && w.toList.all Char.isAlpha) = true) :
    Word w.toList := by
  rw [Bool.and_eq_true, Bool.not_eq_true', List.isEmpty_eq_false_iff] at h
  exact ⟨h.1, List.all_eq_true.1 h.2⟩

/-- The name of an accent is a word, and finds the accent. -/
theorem accentNamed?_name {a : Accent} (ha : a ∈ accents) :
    accentNamed? a.name = some a ∧ Word a.name.toList := by
  have hall : ∀ a ∈ accents, accentNamed? a.name = some a ∧
      (!a.name.toList.isEmpty && a.name.toList.all Char.isAlpha) = true := by
    decide
  exact ⟨(hall a ha).1, word_of_all (hall a ha).2⟩

/-- The name of a typeface is a word, and finds the typeface and no accent. -/
theorem typefaceNamed?_name {t : Typeface} (ht : t ∈ typefaces) :
    typefaceNamed? t.name = some t ∧ Word t.name.toList ∧ accentNamed? t.name = none := by
  have hall : ∀ t ∈ typefaces, typefaceNamed? t.name = some t ∧
      (!t.name.toList.isEmpty && t.name.toList.all Char.isAlpha) = true ∧
      accentNamed? t.name = none := by
    decide
  exact ⟨(hall t ht).1, word_of_all (hall t ht).2.1, (hall t ht).2.2⟩

/-! ## Parts -/

/-- What comes after a part: nothing, or a script. -/
structure Follows (rest : List Char) : Prop where
  breaks : Breaks rest
  accent : Quiet accentNamed? rest
  typeface : Quiet typefaceNamed? rest

theorem follows_nil : Follows [] :=
  ⟨fun _ hc => absurd hc (by simp), quiet_nil _, quiet_nil _⟩

/-- After the accents there may be a typeface. -/
theorem quiet_typefaces {p : Part} (hp : p.Modified) {rest : List Char} (hr : Follows rest) :
    Quiet accentNamed? (wordsBehind (p.typefaces.map (·.name)) ++ rest) := by
  cases hts : p.typefaces with
  | nil => exact hr.accent
  | cons t ts =>
    have ht := (hp.typefaces t (hts ▸ List.mem_cons_self)).1
    obtain ⟨-, hw, hn⟩ := typefaceNamed?_name ht
    have hq := quiet_word hw hn (breaks_wordsBehind (ts.map (·.name)) hr.breaks)
    simpa only [wordsBehind, List.map_cons, List.flatMap_cons, List.cons_append,
      List.append_assoc] using hq

/-- A part is found again in front of what comes after it. -/
theorem readPart_text {p : Part} (hp : p.Modified) (hbar : ∀ c ∈ p.base, c ≠ '_')
    {rest : List Char} (hr : Follows rest) : readPart (p.text ++ rest) = (p, rest) := by
  have hface := breaks_wordsBehind (p.typefaces.map (·.name)) hr.breaks
  have haccent := breaks_wordsBehind (p.accents.map (·.name)) hface
  have hbase : ∀ c ∈ p.base, (c != '_') = true := fun c hc => bne_iff_ne.2 (hbar c hc)
  have hhead : ∀ c ∈ (wordsBehind (p.accents.map (·.name)) ++
      (wordsBehind (p.typefaces.map (·.name)) ++ rest)).head?, (c != '_') = false := by
    intro c hc
    rw [haccent c hc]
    rfl
  -- the base ends at the first underscore, and the words behind it are taken in their order
  obtain ⟨ht, hd⟩ := takeWhile_append_of_head hbase hhead
  have haccents := modifiers_words accentNamed? Accent.name
    (fun a ha => accentNamed?_name (hp.accents a ha)) hface (quiet_typefaces hp hr)
  have hfaces := modifiers_words typefaceNamed? Typeface.name
    (fun t ht => ⟨(typefaceNamed?_name (hp.typefaces t ht).1).1,
      (typefaceNamed?_name (hp.typefaces t ht).1).2.1⟩) hr.breaks hr.typeface
  unfold readPart
  rw [Part.text, List.append_assoc, List.append_assoc, ht, hd]
  dsimp only
  rw [haccents]
  dsimp only
  rw [hfaces]

/-- What a base is written as: the command of the symbol that it names, or the base itself. -/
def baseMarkup (base : List Char) : String :=
  match symbolNamed? (String.ofList base) with
  | some s => s.command
  | none => String.ofList base

/-- The markup of a part. -/
def Part.markup (p : Part) : String :=
  p.typefaces.foldl Typeface.apply (p.accents.foldl Accent.apply (baseMarkup p.base))

theorem symbolOfChar?_of_isDigit {c : Char} (h : c.isDigit = true) : symbolOfChar? c = none := by
  have hall : namedSymbols.all fun s => !s.char.isDigit := by decide
  refine List.find?_eq_none.2 fun s hs heq => ?_
  have := List.all_eq_true.1 hall s hs
  rw [beq_iff_eq.1 heq, h] at this
  exact absurd this (by decide)

/-- A base of letters or of digits is written as it stands or as a symbol. -/
theorem baseMarkup?_eq {p : Part} (hp : p.Modified)
    (hbase : ∀ c ∈ p.base, c.isAlpha = true ∨ c.isDigit = true) (inTypeface : Bool) :
    baseMarkup? p.base inTypeface = some (baseMarkup p.base) := by
  have hsign : signMarkup? p.base = none := by
    unfold signMarkup?
    dsimp only
    rw [hp.sign]
    split
    next c hc =>
      rcases hbase c (hc ▸ List.mem_cons_self) with h | h
      · rw [symbolOfChar?_of_isAlpha h]
        rfl
      · rw [symbolOfChar?_of_isDigit h]
        rfl
    next => rfl
  have hall : p.base.all isWordChar = true :=
    List.all_eq_true.2 fun c hc => isWordChar_of_ascii (hbase c hc)
  unfold baseMarkup? baseMarkup
  dsimp only
  rw [hp.digit, hsign, hall]
  cases symbolNamed? (String.ofList p.base) <;> rfl

/-! ## Scripts -/

theorem Part.Script.ascii {p : Part} (h : p.Script) :
    p.base ≠ [] ∧ ∀ c ∈ p.base, c.isAlpha = true ∨ c.isDigit = true := by
  rcases h.base with ⟨hw, -⟩ | ⟨hd, -⟩
  · exact ⟨hw.ne_nil, fun c hc => Or.inl (hw.letters c hc)⟩
  · exact ⟨hd.ne_nil, fun c hc => Or.inr (hd.digits c hc)⟩

theorem ne_underscore {c : Char} (h : c.isAlpha = true ∨ c.isDigit = true) : c ≠ '_' := by
  rintro rfl
  exact absurd h (by decide)

/-- The text of a script is read as its markup. -/
theorem script?_text {p : Part} (h : p.Script) {rest : List Char} (hr : Follows rest) :
    script? (p.text ++ rest) = some (p.markup, rest) := by
  have hpart := readPart_text h.toModified (fun c hc => ne_underscore (h.ascii.2 c hc)) hr
  unfold script?
  rw [hpart]
  dsimp only
  rw [Part.accented?, baseMarkup?_eq h.toModified h.ascii.2]
  rfl

/-- A subscript is not taken for a modifier. -/
theorem follows_below {p : Part} (h : p.Script) {rest : List Char} (hr : Follows rest) :
    Follows ('_' :: (p.text ++ rest)) := by
  have hbreaks := breaks_wordsBehind (p.accents.map (·.name))
    (breaks_wordsBehind (p.typefaces.map (·.name)) hr.breaks)
  have htext : p.text ++ rest = (String.ofList p.base).toList ++
      (wordsBehind (p.accents.map (·.name)) ++
        (wordsBehind (p.typefaces.map (·.name)) ++ rest)) := by
    rw [Part.text, String.toList_ofList, List.append_assoc, List.append_assoc]
  -- a word is no modifier, and digits are no word
  rcases h.base with ⟨hw, ha, ht⟩ | ⟨hd, -⟩
  · have hword : Word (String.ofList p.base).toList := by
      rw [String.toList_ofList]
      exact hw
    rw [htext]
    exact ⟨breaks_cons _, quiet_word hword ha hbreaks, quiet_word hword ht hbreaks⟩
  · have hhead : ∀ c ∈ (p.text ++ rest).head?, c.isAlpha = false := by
      obtain ⟨d, ds, hds⟩ := List.exists_cons_of_ne_nil hd.ne_nil
      intro c hc
      rw [htext, String.toList_ofList, hds] at hc
      rw [← Option.some.inj hc, ← Bool.not_eq_true]
      intro hl
      have := (lone_of_isAlpha hl).digit
      rw [hd.digits d (hds ▸ List.mem_cons_self)] at this
      exact Bool.noConfusion this
    exact ⟨breaks_cons _, quiet_of_head _ hhead, quiet_of_head _ hhead⟩

/-- A superscript is no modifier either. -/
theorem follows_above (cs : List Char) : Follows ('_' :: '_' :: cs) := by
  have hhead : ∀ c ∈ ('_' :: cs).head?, c.isAlpha = false := by
    intro c hc
    rw [← Option.some.inj hc]
    rfl
  exact ⟨breaks_cons _, quiet_of_head _ hhead, quiet_of_head _ hhead⟩

/-- The subscripts of a name in words. -/
def belowText (ps : List Part) : List Char :=
  ps.flatMap fun p => '_' :: p.text

theorem belowText_cons (p : Part) (ps : List Part) :
    belowText (p :: ps) = '_' :: (p.text ++ belowText ps) := by
  rw [belowText, List.flatMap_cons, List.cons_append]
  rfl

theorem follows_belowText {ps : List Part} (h : ∀ p ∈ ps, p.Script) : Follows (belowText ps) := by
  induction ps with
  | nil => exact follows_nil
  | cons p ps ih =>
    rw [belowText_cons]
    exact follows_below (h p List.mem_cons_self) (ih fun q hq => h q (List.mem_cons_of_mem p hq))

/-- The texts of subscripts are read as their markup. -/
theorem scripts?_belowText {ps : List Part} (h : ∀ p ∈ ps, p.Script) :
    scripts? (belowText ps) = some ⟨[], ps.map Part.markup, []⟩ := by
  induction ps with
  | nil => exact scripts?_nil
  | cons p ps ih =>
    have hp := h p List.mem_cons_self
    have hps : ∀ q ∈ ps, q.Script := fun q hq => h q (List.mem_cons_of_mem p hq)
    have hscript := script?_text hp (follows_belowText hps)
    obtain ⟨c, cs, hc⟩ := List.exists_cons_of_ne_nil hp.ascii.1
    -- the text of a part does not begin with an underscore, so no superscript is read
    have hne : ∀ after, p.text ++ belowText ps ≠ '_' :: after := by
      intro after heq
      rw [Part.text, hc] at heq
      exact ne_underscore (hp.ascii.2 c (hc ▸ List.mem_cons_self)) (List.cons.inj heq).1
    rw [belowText_cons, scripts?]
    · split
      next s rest hs =>
        obtain ⟨rfl, rfl⟩ := Prod.mk.inj (Option.some.inj (hscript.symm.trans hs))
        rw [ih hps]
        rfl
      next hs =>
        rw [hscript] at hs
        exact absurd hs (by simp)
    · exact hne

/-- The scripts of a name in words. -/
def scriptsText (above below : List Part) : List Char :=
  above.flatMap (fun p => '_' :: '_' :: p.text) ++ belowText below

theorem scriptsText_cons (p : Part) (ps below : List Part) :
    scriptsText (p :: ps) below = '_' :: '_' :: (p.text ++ scriptsText ps below) := by
  simp only [scriptsText, List.flatMap_cons, List.cons_append, List.append_assoc]

theorem follows_scriptsText (above : List Part) {below : List Part} (h : ∀ p ∈ below, p.Script) :
    Follows (scriptsText above below) := by
  cases above with
  | nil => exact follows_belowText h
  | cons p ps =>
    rw [scriptsText_cons]
    exact follows_above _

/-- The scripts of a name are found again, each as its markup. -/
theorem scripts?_text {above below : List Part} (ha : ∀ p ∈ above, p.Script)
    (hb : ∀ p ∈ below, p.Script) :
    scripts? (scriptsText above below) =
      some ⟨above.map Part.markup, below.map Part.markup, []⟩ := by
  induction above with
  | nil => exact scripts?_belowText hb
  | cons p ps ih =>
    have hscript := script?_text (ha p List.mem_cons_self) (follows_scriptsText ps hb)
    rw [scriptsText_cons, scripts?]
    split
    next s rest hs =>
      obtain ⟨rfl, rfl⟩ := Prod.mk.inj (Option.some.inj (hscript.symm.trans hs))
      rw [ih fun q hq => ha q (List.mem_cons_of_mem p hq)]
      rfl
    next hs =>
      rw [hscript] at hs
      exact absurd hs (by simp)

/-! ## Names -/

/-- The markup of a name before it is set in its typefaces. -/
def Composite.body (n : Composite) : String :=
  addScripts "_" (n.below.map Part.markup) (addScripts "^" (n.above.map Part.markup)
    (n.part.accents.foldl Accent.apply (baseMarkup n.part.base)))

/-- The markup of a name. -/
def Composite.markup (n : Composite) : String :=
  if n.part.typefaces.isEmpty then Wrapping.apply .auto n.body
  else n.part.typefaces.foldl Typeface.apply n.body

/-- The text of a name is that of its part and of its scripts. -/
theorem Composite.text_eq (n : Composite) :
    n.text = n.part.text ++ scriptsText n.above n.below := by
  rw [Composite.text, List.append_assoc]
  rfl

/-- What a regular name is written as. -/
theorem Composite.encode_text {n : Composite} (h : n.Regular) :
    encode (String.ofList n.text) .auto = n.markup := by
  have hletters : ∀ c ∈ n.part.base, c.isAlpha = true ∨ c.isDigit = true :=
    fun c hc => Or.inl (h.base.letters c hc)
  have hpart := readPart_text h.part (fun c hc => ne_underscore (hletters c hc))
    (follows_scriptsText n.above h.below)
  -- the base has no digits at its end, so none becomes a subscript
  have hstructured : structured? n.text .auto = some n.markup := by
    rw [n.text_eq]
    unfold structured?
    rw [hpart]
    dsimp only
    rw [splitDigits_letters h.base.ne_nil h.base.letters]
    dsimp only
    rw [Part.accented?, baseMarkup?_eq h.part hletters, scripts?_text h.above h.below]
    rfl
  obtain ⟨c, cs, hc⟩ := List.exists_cons_of_ne_nil h.base.ne_nil
  obtain ⟨rest, hrest⟩ : ∃ rest, n.text = c :: rest := by
    rw [n.text_eq, Part.text, hc]
    exact ⟨_, rfl⟩
  have hl := h.base.letters c (hc ▸ List.mem_cons_self)
  rw [hrest] at hstructured ⊢
  rw [encode_of_letter hl, hstructured, Option.getD_some]

end Name
end MathMarkup
