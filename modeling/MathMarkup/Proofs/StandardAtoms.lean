import MathMarkup.Proofs.Numerals
import MathMarkup.Proofs.StandardOperands

/-!
# Names and numerals of standard notation

Letters, words and integers are read back from their renderings wherever they stand. A word is
written upright, and so are some constants: their triggers spell either the name of the entry or a
single letter (`isOwnName`), so a word that names no entry is none of them.
-/

namespace MathMarkup
namespace Standard

open MathMarkup.Lexer MathMarkup.Parser MathMarkup.Reading

/-- An expression that stands by itself is read back as it is. -/
theorem rereadable_closed {canonical : Bool} {e : Expr} {s : String} {ts : List Token}
    {avoid : List String} (hr : (renderer canonical).Renders e s)
    (hl : Legible Index.standard e s ts 65536 65536 avoid) (hw : ∀ w ∈ avoid, w ∈ extending)
    (hb : "!" ∉ Token.raws ts) (hs : e.strip = e) (hq : e.isApply "Sequence" = false) :
    Rereadable canonical e := by
  have hlast : (Token.raws ts).getLast? ≠ some "!" := fun h => hb (List.mem_of_getLast? h)
  exact ⟨e, s, ts, 65536, 65536, avoid, readable_closed hl hw hlast hs hq, rereads_refl hb,
    binds_closed canonical e s, hr⟩

/-! ## Letters -/

theorem bang_not_mem_letter {c : Char} (hc : c.isAlpha = true) :
    "!" ∉ Token.raws [Name.letterToken c] := by
  rw [show Token.raws [Name.letterToken c] = [String.ofList [c]] from rfl, List.mem_singleton]
  intro h
  exact Name.not_mem_of_letter hc (show ["!"].all _ from by decide) (List.mem_singleton.2 h.symm)

/-- Every letter is a name by itself. -/
theorem legible_standardLetter {c : Char} (hc : c.isAlpha = true) (avoid : List String) :
    Legible Index.standard (.symbol (String.ofList [c])) (String.ofList [c]) [Name.letterToken c]
      65536 65536 avoid :=
  legible_letter hc (fun kind us => lookup_foreign (foreign_letter hc) kind us) avoid

/-- A letter is rendered as itself, as no standard entry has its name. -/
theorem renders_standardLetter (canonical : Bool) {c : Char} (hc : c.isAlpha = true) :
    (renderer canonical).Renders (.symbol (String.ofList [c])) (String.ofList [c]) := by
  have hr := @Renderer.renders_unnamed (renderer canonical) _ (byName?_letter c)
  rw [Name.encode_letter hc] at hr
  exact hr

/-- A letter can be read back. -/
theorem rereadable_letter (canonical : Bool) {c : Char} (hc : c.isAlpha = true) :
    Rereadable canonical (.symbol (String.ofList [c])) :=
  rereadable_closed (renders_standardLetter canonical hc) (legible_standardLetter hc extending)
    (fun _ => id) (bang_not_mem_letter hc) rfl rfl

/-! ## Words -/

/-- The raw texts of an upright word. -/
def uprightWord (w : String) : List String :=
  "\\mathrm" :: "\x7b" :: w.toList.map (fun c => String.ofList [c]) ++ ["\x7d"]

/-- A trigger that is an upright word spells the name of the entry or a letter. -/
def isOwnName (f : Entry) : Bool :=
  f.trigger.head? != some "\\mathrm" ||
    (f.name.toList ++ ["e", "i"]).any fun w =>
      f.trigger == uprightWord w && !w.toList.contains '}'

theorem isOwnName_standard : Lexicon.standard.all isOwnName = true := by
  decide +kernel

theorem takeWhile_brace {w : String} (h : '}' ∉ w.toList) (us : List String) :
    (w.toList.map (fun c => String.ofList [c]) ++ "\x7d" :: us).takeWhile (· != "\x7d") =
      w.toList.map fun c => String.ofList [c] := by
  rw [List.takeWhile_append_of_pos, List.takeWhile_cons_of_neg, List.append_nil]
  · rw [bne_self_eq_false]
    exact Bool.false_ne_true
  · intro u hu
    obtain ⟨c, hc, rfl⟩ := List.mem_map.1 hu
    rw [bne_iff_ne]
    intro he
    have hc' : [c] = ['}'] := String.ofList_injective he
    exact h (List.cons.inj hc' |>.1 ▸ hc)

/-- An upright word ends at its brace, so it tells which word it is. -/
theorem eq_of_prefix_uprightWord {w v : String} (hw : '}' ∉ w.toList) (hv : '}' ∉ v.toList)
    {us : List String} (h : uprightWord w <+: uprightWord v ++ us) : w = v := by
  obtain ⟨us', h⟩ := h
  simp only [uprightWord, List.cons_append, List.append_assoc, List.cons.injEq, true_and,
    List.nil_append] at h
  have hmap := congrArg (List.takeWhile (· != "\x7d")) h
  rw [takeWhile_brace hw, takeWhile_brace hv] at hmap
  have hinj : Function.Injective fun c : Char => String.ofList [c] := by
    intro c d hcd
    exact (List.cons.inj (String.ofList_injective hcd)).1
  exact String.toList_injective (List.map_injective_iff.2 hinj hmap)

/-- A word of letters that is not the name of an entry. -/
structure Unnamed (cs : List Char) : Prop extends Name.PlainWord cs where
  entry : ∀ f ∈ Lexicon.standard, f.name ≠ some (String.ofList cs)

theorem raws_wordTokens (cs : List Char) :
    Token.raws (Name.wordTokens cs) = uprightWord (String.ofList cs) := by
  simp [Name.wordTokens, uprightWord, Token.raws, Name.letterToken, leftBrace, rightBrace]

/-- No standard symbol is found where an upright word comes next. -/
theorem lookup_word {cs : List Char} (h : Unnamed cs) (hlen : 1 < cs.length) (us : List String) :
    Index.standard.lookup .identifier (uprightWord (String.ofList cs) ++ us) = [] := by
  refine Index.lookup_ofEntries_nil (List.filter_eq_nil_iff.2 fun f hf hfound => ?_)
  rw [Option.any_eq_true] at hfound
  obtain ⟨i, hi, hfound⟩ := hfound
  rw [Index.isFound, Bool.and_eq_true, Bool.and_eq_true, (Index.of_usable?_eq_some hi).2,
    List.isPrefixOf_iff_prefix] at hfound
  obtain ⟨-, hne, hprefix⟩ := hfound
  have hhead : f.trigger.head? = some "\\mathrm" := by
    obtain ⟨w, ws, ht⟩ := List.exists_cons_of_ne_nil (bne_iff_ne.1 hne)
    rw [ht, uprightWord] at hprefix
    rw [ht, (List.cons_prefix_cons.1 hprefix).1]
    rfl
  -- a trigger in upright letters is the name of its entry, so no entry has one with another word
  have hown := List.all_eq_true.1 isOwnName_standard f hf
  rw [isOwnName, hhead, bne_self_eq_false, Bool.false_or, List.any_eq_true] at hown
  obtain ⟨w, hw, hown⟩ := hown
  rw [Bool.and_eq_true, beq_iff_eq, Bool.not_eq_true', ← Bool.not_eq_true,
    List.contains_iff_mem] at hown
  obtain ⟨ht, hbrace⟩ := hown
  have hcs : '}' ∉ (String.ofList cs).toList := by
    rw [String.toList_ofList]
    exact fun hm => absurd (h.letters _ hm) (by decide)
  rw [ht] at hprefix
  have hsame := eq_of_prefix_uprightWord hbrace hcs hprefix
  rcases List.mem_append.1 hw with hw | hw
  · rw [Option.mem_toList] at hw
    exact h.entry f hf (hsame ▸ hw)
  · -- the other upright triggers are a single letter
    have hone : w.toList.length = 1 := by
      rcases List.mem_cons.1 hw with rfl | hw
      · rfl
      · rw [List.mem_singleton.1 hw]
        rfl
    rw [hsame, String.toList_ofList] at hone
    omega

/-- An upright word is legible. -/
theorem legible_word {cs : List Char} (h : Unnamed cs) (hlen : 1 < cs.length) :
    Legible Index.standard (.symbol (String.ofList cs))
      ("\\mathrm" ++ Name.braced (String.ofList cs)) (Name.wordTokens cs) 65536 65536 extending where
  scans := Name.scans_word h.letters
  begins := ⟨_, _, rfl, by decide, by decide, by decide⟩
  opens m _ := by
    have hnone : ∀ kind, Index.rivals Lexicon.standard kind ["\\mathrm"] [] = 0 →
        ∀ us, Index.standard.lookup kind (Token.raws (Name.wordTokens cs ++ us)) = [] :=
      fun kind hr us => Index.lookup_of_no_rivals hr fun u _ => List.not_mem_nil
    refine opens_name ⟨by decide, by decide, by decide, by decide, by decide⟩
      (hnone .matchfix (by decide +kernel)) (hnone .prefixOp (by decide +kernel)) (fun us => ?_)
      (Name.identifier?_word h.letters hlen)
    show Index.standard.lookup .identifier (Token.raws (Name.wordTokens cs ++ us)) = []
    rw [raws_append, raws_wordTokens]
    exact lookup_word h hlen _
  own_le := Nat.le_refl _

/-- A word that names nothing is read back as the symbol it is. -/
theorem rereadable_word (canonical : Bool) {cs : List Char} (h : Unnamed cs)
    (hlen : 1 < cs.length) : Rereadable canonical (.symbol (String.ofList cs)) := by
  have hne : cs ≠ [] := List.ne_nil_of_length_pos (by omega)
  have hr := @Renderer.renders_unnamed (renderer canonical) _
    (Index.byName?_of_not_named h.entry)
  rw [Name.encode_word hne h.toPlainWord, if_pos hlen] at hr
  refine rereadable_closed hr (legible_word h hlen) (fun _ => id) (fun hm => ?_) rfl rfl
  rw [raws_wordTokens, uprightWord] at hm
  rcases List.mem_append.1 hm with hm | hm
  · rcases List.mem_cons.1 hm with hm | hm
    · exact absurd hm (by decide)
    rcases List.mem_cons.1 hm with hm | hm
    · exact absurd hm (by decide)
    obtain ⟨c, hc, he⟩ := List.mem_map.1 hm
    rw [String.toList_ofList] at hc
    exact Name.not_mem_of_letter (h.letters c hc) (show ["!"].all _ from by decide)
      (List.mem_singleton.2 he)
  · exact absurd (List.mem_singleton.1 hm) (by decide)

/-! ## Integers -/

theorem raw_groupTokens {gs : List (List Char)} {t : Token} (h : t ∈ Numeral.groupTokens gs) :
    t = Numeral.thinToken ∨ ∃ g ∈ gs, t = Numeral.groupToken g := by
  induction gs with
  | nil => cases h
  | cons g gs ih =>
    cases gs with
    | nil => exact Or.inr ⟨g, List.mem_cons_self, List.mem_singleton.1 h⟩
    | cons g' gs =>
      rcases List.mem_cons.1 h with rfl | h
      · exact Or.inr ⟨g, List.mem_cons_self, rfl⟩
      rcases List.mem_cons.1 h with rfl | h
      · exact Or.inl rfl
      · exact (ih h).imp_right fun ⟨g'', hg, ht⟩ => ⟨g'', List.mem_cons_of_mem g hg, ht⟩

/-- No token of a numeral is a text that has no digit. -/
theorem not_mem_groupTokens {gs : List (List Char)}
    (h : ∀ g ∈ gs, g ≠ [] ∧ ∀ c ∈ g, c.isDigit = true) {w : String} (hthin : w ≠ thinSpace)
    (hw : w.toList.all fun c => !c.isDigit) : w ∉ Token.raws (Numeral.groupTokens gs) := by
  intro hm
  obtain ⟨t, ht, rfl⟩ := List.mem_map.1 hm
  rcases raw_groupTokens ht with rfl | ⟨g, hg, rfl⟩
  · exact hthin rfl
  · obtain ⟨hne, hd⟩ := h g hg
    obtain ⟨d, ds, rfl⟩ := List.exists_cons_of_ne_nil hne
    have hno := List.all_eq_true.1 hw d (by
      rw [Numeral.groupToken, String.toList_ofList]
      exact List.mem_cons_self)
    rw [hd d List.mem_cons_self] at hno
    exact Bool.noConfusion hno

/-- Groups of digits are legible. -/
theorem legible_groups {gs : List (List Char)} {ds : List Char} (h : Numeral.Grouped gs ds)
    (hd : ∀ c ∈ ds, c.isDigit = true) :
    Legible Index.standard (.number (String.ofList ds)) (Numeral.groupsMarkup gs)
      (Numeral.groupTokens gs) 65536 65536 extending := by
  have hgroups : ∀ g ∈ gs, g ≠ [] ∧ ∀ c ∈ g, c.isDigit = true :=
    fun g hg => ⟨h.group g hg, h.digits hd hg⟩
  obtain ⟨g, ts, hg, hts⟩ := Numeral.head?_groupTokens h.ne_nil
  have hraw : ∀ {w}, w ≠ thinSpace → (w.toList.all fun c => !c.isDigit) = true →
      (Numeral.groupToken g).raw ≠ w := by
    rintro w hthin hw rfl
    refine not_mem_groupTokens hgroups hthin hw ?_
    rw [hts]
    exact List.mem_cons_self
  refine ⟨Numeral.scans_groups h.ne_nil hgroups, ⟨_, _, hts, TokenKind.noConfusion,
    hraw (by decide) (by decide), hraw (by decide) (by decide)⟩, fun m _ => ?_, Nat.le_refl _⟩
  rw [hts]
  refine opens_numeral rfl fun rest hr n => ?_
  rw [← hts]
  exact Numeral.reads_groups h hd hr

/-- A whole number is legible in its groups. -/
theorem legible_integer {ds : List Char} (h : Numeral.Canonical ds) :
    Legible Index.standard (.number (String.ofList ds)) (Numeral.groupsMarkup (Numeral.groups ds))
      (Numeral.groupTokens (Numeral.groups ds)) 65536 65536 extending :=
  legible_groups (Numeral.grouped_chunksFromRight h.ne_nil) h.digits

theorem bang_not_mem_integer {ds : List Char} (h : Numeral.Canonical ds) :
    "!" ∉ Token.raws (Numeral.groupTokens (Numeral.groups ds)) := by
  have hgrouped : Numeral.Grouped (Numeral.groups ds) ds :=
    Numeral.grouped_chunksFromRight h.ne_nil
  exact not_mem_groupTokens (fun g hg => ⟨hgrouped.group g hg, hgrouped.digits h.digits hg⟩)
    (by decide) (by decide)

/-- A non-negative integer is read back from its groups of digits. -/
theorem rereadable_integer (canonical : Bool) {ds : List Char} (h : Numeral.Canonical ds) :
    Rereadable canonical (.number (String.ofList ds)) :=
  rereadable_closed (Renderer.renders_number (Numeral.render_canonical h)) (legible_integer h)
    (fun _ => id) (bang_not_mem_integer h) rfl rfl

end Standard
end MathMarkup
