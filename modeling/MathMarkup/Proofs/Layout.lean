import MathMarkup.Proofs.Scan

/-!
# How tokens lie in the markup

What `Token.scan` returns is described here without the lexer: `Lexer.Lays before cs ts` says that
the characters `cs`, behind the tokens `before`, are the tokens `ts` one after the other with
nothing but blanks and comments in between, that each token has the shape of its kind, and that it
ends where its kind says it ends. The markup determines the tokens that lie in it, so the
description and the lexer agree (`Token.scan_eq_iff_lays`).

The lexer remembers the last token in a mode, and the description looks at the tokens before. What
carries the two inductions is that the mode knows enough of them (`Lexer.Mode.Behind`).
-/

namespace MathMarkup
namespace Lexer

/-! ## Between tokens -/

/-- Blanks and comments before the rest of the markup. A comment ends before the next newline, or
with the markup. -/
inductive Gap : List Char → List Char → Prop
  | nil {rest : List Char} : Gap [] rest
  | blank {c : Char} {gap rest : List Char} :
      isBlank c = true → Gap gap rest → Gap (c :: gap) rest
  | comment {text gap rest : List Char} :
      '\n' ∉ text → (∀ c ∈ (gap ++ rest).head?, c = '\n') → Gap gap rest →
      Gap ('%' :: (text ++ gap)) rest

/-- What a comment leaves is what it leaves from its end on. -/
theorem skipIgnored_comment {text : List Char} (ht : '\n' ∉ text) {rest : List Char}
    (hr : ∀ c ∈ rest.head?, c = '\n') :
    skipIgnored true (text ++ rest) = skipIgnored false rest := by
  induction text with
  | nil =>
    cases rest with
    | nil => rfl
    | cons c rest =>
      obtain rfl : c = '\n' := hr c rfl
      rfl
  | cons c text ih =>
    rw [List.mem_cons, not_or] at ht
    rw [List.cons_append, skipIgnored, if_pos rfl, bne_iff_ne.2 (Ne.symm ht.1), ih ht.2]

/-- The lexer drops a gap. -/
theorem skipIgnored_gap {gap rest : List Char} (h : Gap gap rest) :
    skipIgnored false (gap ++ rest) = skipIgnored false rest := by
  induction h with
  | nil => rfl
  | blank hb _ ih => rw [List.cons_append, skipIgnored, if_neg Bool.false_ne_true, if_pos hb, ih]
  | @comment text gap rest ht hr _ ih =>
    have hskip : skipIgnored false ('%' :: (text ++ (gap ++ rest))) =
        skipIgnored true (text ++ (gap ++ rest)) := rfl
    rw [List.cons_append, List.append_assoc, hskip, skipIgnored_comment ht hr, ih]

/-- What the lexer drops is a gap. Inside a comment it is the rest of the comment and a gap. -/
theorem gap_skipIgnored (cs : List Char) :
    (∃ gap, cs = gap ++ skipIgnored false cs ∧ Gap gap (skipIgnored false cs)) ∧
      ∃ text gap, cs = text ++ (gap ++ skipIgnored true cs) ∧ '\n' ∉ text ∧
        (∀ c ∈ (gap ++ skipIgnored true cs).head?, c = '\n') ∧ Gap gap (skipIgnored true cs) := by
  -- both states of the lexer at once: a comment begins in one and ends in the other
  induction cs with
  | nil =>
    refine ⟨⟨[], rfl, .nil⟩, [], [], rfl, List.not_mem_nil, ?_, .nil⟩
    intro c hc
    cases hc
  | cons c cs ih =>
    obtain ⟨⟨gap, hcs, hgap⟩, text, gap', hcs', ht, hr, hgap'⟩ := ih
    constructor
    · by_cases hb : isBlank c = true
      · rw [skipIgnored, if_neg Bool.false_ne_true, if_pos hb]
        exact ⟨c :: gap, congrArg (c :: ·) hcs, .blank hb hgap⟩
      · by_cases hc : c = '%'
        · subst hc
          refine ⟨'%' :: (text ++ gap'), ?_, .comment ht hr hgap'⟩
          exact congrArg ('%' :: ·) (hcs'.trans (List.append_assoc _ _ _).symm)
        · rw [skipIgnored_cons (Bool.eq_false_iff.2 hb) hc]
          exact ⟨[], rfl, .nil⟩
    · by_cases hn : c = '\n'
      · -- the comment ends here, with the newline in the gap
        subst hn
        refine ⟨[], '\n' :: gap, congrArg ('\n' :: ·) hcs, List.not_mem_nil, ?_,
          .blank isBlank_newline hgap⟩
        intro d hd
        exact (Option.some.inj hd).symm
      · have hskip : skipIgnored true (c :: cs) = skipIgnored true cs := by
          rw [skipIgnored, if_pos rfl, bne_iff_ne.2 hn]
        rw [hskip]
        refine ⟨c :: text, gap', congrArg (c :: ·) hcs', ?_, hr, hgap'⟩
        rw [List.mem_cons, not_or]
        exact ⟨Ne.symm hn, ht⟩

/-- After a gap there is something else. -/
theorem head_skipIgnored (comment : Bool) (cs : List Char) :
    ∀ c ∈ (skipIgnored comment cs).head?, isBlank c = false ∧ c ≠ '%' := by
  induction cs generalizing comment with
  | nil => intro c hc; cases hc
  | cons c cs ih =>
    rw [skipIgnored]
    split
    · exact ih _
    · split
      next => exact ih _
      next hb =>
        split
        next => exact ih _
        next hc =>
          intro d hd
          obtain rfl := Option.some.inj hd
          exact ⟨Bool.eq_false_iff.2 hb, mt beq_iff_eq.2 hc⟩

/-! ## The kinds -/

/-- Behind the characters with a property comes one without it, or nothing. -/
theorem head_dropWhile {p : Char → Bool} (cs : List Char) :
    ∀ c ∈ (cs.dropWhile p).head?, p c = false := by
  intro c hc
  have hnot := List.head?_dropWhile_not p cs
  rw [Option.mem_def.1 hc] at hnot
  simpa using hnot

/-- The name of a command, before the rest of the markup: a run of ASCII letters that is followed
by none, one other character, or nothing at the end. -/
inductive CommandName : List Char → List Char → Prop
  | word {letters rest : List Char} : letters ≠ [] → (∀ c ∈ letters, c.isAlpha = true) →
      (∀ c ∈ rest.head?, c.isAlpha = false) → CommandName letters rest
  | symbol {c : Char} {rest : List Char} : c.isAlpha = false → CommandName [c] rest
  | slash : CommandName [] []

/-- A command is split off exactly where its name ends. -/
theorem splitCommand_eq_iff {cs name rest : List Char} :
    splitCommand cs = (name, rest) ↔ cs = name ++ rest ∧ CommandName name rest := by
  constructor
  · intro h
    have happend := splitCommand_append cs
    rw [h] at happend
    refine ⟨happend.symm, ?_⟩
    unfold splitCommand at h
    split at h
    next hw =>
      -- no letter behind the backslash, so the name is at most one character
      obtain ⟨rfl, rfl⟩ := Prod.mk.inj h
      cases cs with
      | nil => exact .slash
      | cons c cs =>
        refine .symbol (Bool.eq_false_iff.2 fun hc => ?_)
        rw [List.takeWhile_cons_of_pos hc] at hw
        cases hw
    next hw =>
      obtain ⟨rfl, rfl⟩ := Prod.mk.inj h
      refine .word (fun hnil => hw hnil) (List.all_eq_true.1 List.all_takeWhile) ?_
      exact head_dropWhile cs
  · rintro ⟨rfl, hname⟩
    unfold splitCommand
    cases hname with
    | word hne hletters hr =>
      obtain ⟨ht, hd⟩ := takeWhile_append_of_head hletters hr
      rw [ht, hd]
      split
      · exact absurd rfl hne
      · rfl
    | symbol hc =>
      rw [List.singleton_append, List.takeWhile_cons_of_neg (by rw [hc]; decide)]
      rfl
    | slash => rfl

/-- A number, before the rest of the markup: digits with at most one point, which is not the last
character. It goes on as long as it can. -/
structure NumberRun (text rest : List Char) : Prop where
  chars : ∀ c ∈ text, c.isDigit = true ∨ c = '.'
  digit : ∃ c ∈ text, c.isDigit = true
  point : text.count '.' ≤ 1
  last : text.getLast? ≠ some '.'
  digits : ∀ c ∈ rest.head?, c.isDigit = false
  fraction : '.' ∉ text → ∀ after, rest = '.' :: after → ∀ c ∈ after.head?, c.isDigit = false

/-- There is no fraction exactly if no digit stands behind a point. -/
theorem fractionDigits_eq_nil_iff {cs : List Char} :
    fractionDigits cs = [] ↔
      ∀ after, cs = '.' :: after → ∀ c ∈ after.head?, c.isDigit = false := by
  constructor
  · rintro h after rfl c hc
    cases after with
    | nil => cases hc
    | cons d after =>
      obtain rfl := Option.some.inj hc
      refine Bool.eq_false_iff.2 fun hd => ?_
      rw [fractionDigits, List.takeWhile_cons_of_pos hd] at h
      cases h
  · intro h
    unfold fractionDigits
    split
    next after =>
      cases after with
      | nil => rfl
      | cons c after =>
        rw [List.takeWhile_cons_of_neg (by rw [h _ rfl c rfl]; decide)]
    next => rfl

theorem not_mem_of_digits {ds : List Char} (h : ∀ c ∈ ds, c.isDigit = true) : '.' ∉ ds :=
  fun hm => absurd (h _ hm) (by decide)

/-- The digits at the front are digits. -/
theorem isDigit_of_mem_takeWhile {cs : List Char} :
    ∀ c ∈ cs.takeWhile Char.isDigit, c.isDigit = true :=
  List.all_eq_true.1 List.all_takeWhile

/-- Digits that neither a digit nor a fraction goes on with are a number. -/
theorem numberRun_digits {ds rest : List Char} (hne : ds ≠ []) (hds : ∀ c ∈ ds, c.isDigit = true)
    (hr : ∀ c ∈ rest.head?, c.isDigit = false) (hf : fractionDigits rest = []) :
    NumberRun ds rest := by
  have hpoint := not_mem_of_digits hds
  obtain ⟨c, hc⟩ := List.exists_mem_of_ne_nil ds hne
  exact
    { chars := fun d hd => Or.inl (hds d hd)
      digit := ⟨c, hc, hds c hc⟩
      point := by rw [List.count_eq_zero.2 hpoint]; exact Nat.zero_le 1
      last := fun hl => hpoint (List.mem_of_getLast? hl)
      digits := hr
      fraction := fun _ => fractionDigits_eq_nil_iff.1 hf }

/-- Digits, a point and digits behind it are a number, if no digit goes on. -/
theorem numberRun_point {w f rest : List Char} (hw : ∀ c ∈ w, c.isDigit = true) (hne : f ≠ [])
    (hf : ∀ c ∈ f, c.isDigit = true) (hr : ∀ c ∈ rest.head?, c.isDigit = false) :
    NumberRun (w ++ '.' :: f) rest := by
  obtain ⟨c, hc⟩ := List.exists_mem_of_ne_nil f hne
  -- digits have no point among them, so the point in between is the only one
  have hcount : (w ++ '.' :: f).count '.' = 1 := by
    rw [List.count_append, List.count_cons_self, List.count_eq_zero.2 (not_mem_of_digits hw),
      List.count_eq_zero.2 (not_mem_of_digits hf)]
  have hlast : (w ++ '.' :: f).getLast? = f.getLast? := by
    obtain ⟨d, ds, rfl⟩ := List.exists_cons_of_ne_nil hne
    rw [List.getLast?_append, List.getLast?_cons_cons, List.getLast?_cons]
    rfl
  exact
    { chars := by
        intro d hd
        rcases List.mem_append.1 hd with hd | hd
        · exact Or.inl (hw d hd)
        · rcases List.mem_cons.1 hd with rfl | hd
          · exact Or.inr rfl
          · exact Or.inl (hf d hd)
      digit := ⟨c, List.mem_append_right w (List.mem_cons_of_mem _ hc), hf c hc⟩
      point := Nat.le_of_eq hcount
      last := by
        rw [hlast]
        exact fun hl => not_mem_of_digits hf (List.mem_of_getLast? hl)
      digits := hr
      fraction := fun hno => absurd (List.mem_append_right w List.mem_cons_self) hno }

/-- A number is digits, or digits around its point with at least one behind it. -/
theorem NumberRun.cases {text rest : List Char} (h : NumberRun text rest) :
    (text ≠ [] ∧ (∀ c ∈ text, c.isDigit = true) ∧ fractionDigits rest = []) ∨
      ∃ w f, text = w ++ '.' :: f ∧ (∀ c ∈ w, c.isDigit = true) ∧ f ≠ [] ∧
        ∀ c ∈ f, c.isDigit = true := by
  obtain ⟨d, hd, -⟩ := h.digit
  by_cases hp : '.' ∈ text
  · right
    obtain ⟨w, f, rfl⟩ := List.append_of_mem hp
    -- the one point is the one between the two parts
    have hcount := h.point
    rw [List.count_append, List.count_cons_self] at hcount
    have hw : '.' ∉ w := List.count_eq_zero.1 (by omega)
    have hf : '.' ∉ f := List.count_eq_zero.1 (by omega)
    refine ⟨w, f, rfl, fun c hc => ?_, ?_, fun c hc => ?_⟩
    · exact (h.chars c (List.mem_append_left _ hc)).resolve_right fun he => hw (he ▸ hc)
    · rintro rfl
      exact h.last (List.getLast?_concat ..)
    · have hmem := List.mem_append_right w (List.mem_cons_of_mem '.' hc)
      exact (h.chars c hmem).resolve_right fun he => hf (he ▸ hc)
  · left
    refine ⟨List.ne_nil_of_mem hd, fun c hc => ?_, fractionDigits_eq_nil_iff.2 (h.fraction hp)⟩
    exact (h.chars c hc).resolve_right fun he => hp (he ▸ hc)

/-- A number is split off exactly where its run ends. -/
theorem splitNumber?_eq_some_iff {cs text rest : List Char} :
    splitNumber? cs = some (text, rest) ↔ cs = text ++ rest ∧ NumberRun text rest := by
  constructor
  · intro h
    obtain ⟨happend, hne⟩ := splitNumber?_append h
    refine ⟨happend.symm, ?_⟩
    simp only [splitNumber?] at h
    split at h
    next hf =>
      split at h
      · cases h
      · obtain ⟨rfl, rfl⟩ := Prod.mk.inj (Option.some.inj h)
        exact numberRun_digits hne isDigit_of_mem_takeWhile (head_dropWhile cs) hf
    next hf =>
      obtain ⟨rfl, rfl⟩ := Prod.mk.inj (Option.some.inj h)
      -- behind the digits there is a point, and digits behind the point
      obtain ⟨after, hafter⟩ : ∃ after, cs.dropWhile Char.isDigit = '.' :: after := by
        unfold fractionDigits at hf
        split at hf
        · exact ⟨_, by assumption⟩
        · exact absurd rfl hf
      rw [hafter] at hf ⊢
      have hfraction : fractionDigits ('.' :: after) = after.takeWhile Char.isDigit := rfl
      have hrest : ('.' :: after).drop ((after.takeWhile Char.isDigit).length + 1) =
          after.dropWhile Char.isDigit := by
        have hdrop :=
          @List.drop_left _ (after.takeWhile Char.isDigit) (after.dropWhile Char.isDigit)
        rw [List.takeWhile_append_dropWhile] at hdrop
        exact hdrop
      rw [hfraction] at hf ⊢
      rw [hrest]
      exact numberRun_point isDigit_of_mem_takeWhile hf isDigit_of_mem_takeWhile
        (head_dropWhile after)
  · rintro ⟨rfl, h⟩
    rcases h.cases with ⟨hne, hds, hf⟩ | ⟨w, f, rfl, hw, hne, hf⟩
    · exact splitNumber?_digits hne hds h.digits hf
    · exact splitNumber?_point hw hne hf h.digits

/-- No number begins exactly where there is neither a digit nor a point in front of one. -/
theorem splitNumber?_eq_none_iff {c : Char} {cs : List Char} :
    splitNumber? (c :: cs) = none ↔
      c.isDigit = false ∧ (c = '.' → ∀ d ∈ cs.head?, d.isDigit = false) := by
  by_cases hc : c.isDigit = true
  · have hsome : splitNumber? (c :: cs) ≠ none := by
      simp only [splitNumber?, List.takeWhile_cons_of_pos hc]
      split
      · exact Option.some_ne_none _
      · exact Option.some_ne_none _
    rw [hc]
    exact ⟨fun h => absurd h hsome, fun h => absurd h.1 (by decide)⟩
  · -- without digits in front of it, only a fraction can begin the number
    have hfraction : splitNumber? (c :: cs) = none ↔ fractionDigits (c :: cs) = [] := by
      simp only [splitNumber?, List.takeWhile_cons_of_neg hc, List.dropWhile_cons_of_neg hc]
      split
      next hf =>
        exact ⟨fun _ => hf, fun _ => rfl⟩
      next hf =>
        constructor
        · intro h
          cases h
        · intro h
          exact absurd h hf
    rw [hfraction, fractionDigits_eq_nil_iff]
    constructor
    · intro h
      refine ⟨Bool.eq_false_iff.2 hc, ?_⟩
      rintro rfl
      exact h cs rfl
    · rintro ⟨-, h⟩ after heq
      obtain ⟨rfl, rfl⟩ := List.cons.inj heq
      exact h rfl

/-- A character without a meaning of its own, before the rest of the markup. -/
structure PlainChar (c : Char) (rest : List Char) : Prop where
  blank : isBlank c = false
  digit : c.isDigit = false
  special : c ∉ ['\\', '{', '}', '%']
  point : c = '.' → ∀ d ∈ rest.head?, d.isDigit = false

/-- The characters that no backslash takes with it. The flag says that a backslash has just taken
the next one. -/
def unescaped (escaped : Bool) : List Char → List Char
  | [] => []
  | c :: cs =>
    if escaped then unescaped false cs
    else if c = '\\' then unescaped true cs
    else c :: unescaped false cs

/-- A text in a group, before the rest of the markup, where some braces are open already. It closes
no brace but those and its own, and it ends before the brace that closes one more, or with the
markup. -/
structure TextRun (depth : Nat) (escaped : Bool) (text rest : List Char) : Prop where
  nested : ∀ p, p <+: text →
    (unescaped escaped p).count '}' ≤ depth + (unescaped escaped p).count '{'
  closed : rest = [] ∨ (∃ after, rest = '}' :: after) ∧
    (unescaped escaped (text ++ ['}'])).count '}' =
      depth + (unescaped escaped (text ++ ['}'])).count '{' + 1

/-- A character may be taken off the text if the depth tells the braces that it opens and closes. -/
theorem textRun_cons {d d' : Nat} {e e' : Bool} {c : Char}
    (h : ∀ p, (unescaped e (c :: p)).count '}' + (d' + (unescaped e' p).count '{') =
      (unescaped e' p).count '}' + (d + (unescaped e (c :: p)).count '{')) {text rest : List Char} :
    TextRun d e (c :: text) rest ↔ TextRun d' e' text rest := by
  -- the equation at the text and its closing brace; at a prefix of the text it is about nesting
  have hclosed := h (text ++ ['}'])
  constructor
  · intro ht
    refine ⟨fun p hp => ?_, ht.closed.imp_right fun hr => ⟨hr.1, ?_⟩⟩
    · have hn := ht.nested (c :: p) ((List.prefix_cons_inj c).2 hp)
      have := h p
      omega
    · have := hr.2
      rw [List.cons_append] at this
      omega
  · intro ht
    refine ⟨fun p hp => ?_, ht.closed.imp_right fun hr => ⟨hr.1, ?_⟩⟩
    · rcases List.prefix_cons_iff.1 hp with rfl | ⟨q, rfl, hq⟩
      · exact Nat.zero_le _
      · have hn := ht.nested q hq
        have := h q
        omega
    · rw [List.cons_append]
      omega

/-- Whatever stands behind a backslash belongs to the text. -/
theorem textRun_escaped {d : Nat} {c : Char} {text rest : List Char} :
    TextRun d true (c :: text) rest ↔ TextRun d false text rest :=
  textRun_cons fun p => by rw [unescaped, if_pos rfl]

/-- A backslash takes the next character into the text. -/
theorem textRun_slash {d : Nat} {text rest : List Char} :
    TextRun d false ('\\' :: text) rest ↔ TextRun d true text rest :=
  textRun_cons fun p => by rw [unescaped, if_neg Bool.false_ne_true, if_pos rfl]

/-- A character without a backslash in front of it counts as it is. -/
theorem unescaped_cons {c : Char} (hc : c ≠ '\\') (cs : List Char) :
    unescaped false (c :: cs) = c :: unescaped false cs := by
  rw [unescaped, if_neg Bool.false_ne_true, if_neg hc]

/-- An opening brace in the text is one more to be closed. -/
theorem textRun_left {d : Nat} {text rest : List Char} :
    TextRun d false ('{' :: text) rest ↔ TextRun (d + 1) false text rest :=
  textRun_cons fun p => by
    rw [unescaped_cons (by decide), List.count_cons_of_ne (by decide), List.count_cons_self]
    omega

/-- A closing brace in the text closes the innermost one. -/
theorem textRun_right {d : Nat} {text rest : List Char} :
    TextRun (d + 1) false ('}' :: text) rest ↔ TextRun d false text rest :=
  textRun_cons fun p => by
    rw [unescaped_cons (by decide), List.count_cons_self, List.count_cons_of_ne (by decide)]
    omega

/-- A closing brace that closes nothing in the text ends it. -/
theorem not_textRun_right {text rest : List Char} : ¬ TextRun 0 false ('}' :: text) rest := by
  intro h
  have := h.nested ['}'] ((List.prefix_cons_inj '}').2 List.nil_prefix)
  exact absurd this (by decide)

/-- Any other character belongs to the text. -/
theorem textRun_other {d : Nat} {c : Char} {text rest : List Char} (hs : c ≠ '\\') (hl : c ≠ '{')
    (hr : c ≠ '}') : TextRun d false (c :: text) rest ↔ TextRun d false text rest :=
  textRun_cons fun p => by
    rw [unescaped_cons hs, List.count_cons_of_ne hl, List.count_cons_of_ne hr]

/-- What is split off as text is a run of text. -/
theorem textRun_splitText (d : Nat) (e : Bool) (cs : List Char) :
    TextRun d e (splitText d e cs).1 (splitText d e cs).2 := by
  -- an empty text is nested whatever is open
  have hnil : ∀ {d : Nat} {e : Bool} (p : List Char), p <+: [] →
      (unescaped e p).count '}' ≤ d + (unescaped e p).count '{' := by
    rintro d e p hp
    obtain rfl := List.prefix_nil.1 hp
    exact Nat.zero_le _
  induction cs generalizing d e with
  | nil => exact ⟨hnil, Or.inl rfl⟩
  | cons c cs ih =>
    unfold splitText
    dsimp only
    cases e with
    | true => exact textRun_escaped.2 (ih d false)
    | false =>
      rw [if_neg Bool.false_ne_true]
      by_cases hs : c = '\\'
      · subst hs
        exact textRun_slash.2 (ih d true)
      · rw [if_neg (mt beq_iff_eq.1 hs)]
        by_cases hl : c = '{'
        · subst hl
          exact textRun_left.2 (ih (d + 1) false)
        · rw [if_neg (mt beq_iff_eq.1 hl)]
          by_cases hr : c = '}'
          · subst hr
            cases d with
            | zero => exact ⟨hnil, Or.inr ⟨⟨cs, rfl⟩, rfl⟩⟩
            | succ d => exact textRun_right.2 (ih d false)
          · rw [if_neg (mt beq_iff_eq.1 hr)]
            exact (textRun_other hs hl hr).2 (ih d false)

/-- A run of text is split off whole. -/
theorem splitText_of_textRun {d : Nat} {e : Bool} {text rest : List Char}
    (h : TextRun d e text rest) : splitText d e (text ++ rest) = (text, rest) := by
  -- on the text: each character takes the depth and the escape to the rest of the text
  induction text generalizing d e with
  | nil =>
    rcases h.closed with rfl | ⟨⟨after, rfl⟩, hcount⟩
    · rfl
    · -- the brace is not escaped, and it closes a brace that is not the text's
      cases e with
      | true => exact absurd hcount (by simp [unescaped])
      | false =>
        obtain rfl : d = 0 := by
          simp [unescaped] at hcount
          omega
        rfl
  | cons c text ih =>
    unfold splitText
    dsimp only [List.cons_append]
    cases e with
    | true =>
      rw [if_pos rfl, ih (textRun_escaped.1 h)]
    | false =>
      rw [if_neg Bool.false_ne_true]
      by_cases hs : c = '\\'
      · subst hs
        rw [if_pos (beq_self_eq_true _), ih (textRun_slash.1 h)]
      · rw [if_neg (mt beq_iff_eq.1 hs)]
        by_cases hl : c = '{'
        · subst hl
          rw [if_pos (beq_self_eq_true _), ih (textRun_left.1 h)]
        · rw [if_neg (mt beq_iff_eq.1 hl)]
          by_cases hr : c = '}'
          · subst hr
            cases d with
            | zero => exact absurd h not_textRun_right
            | succ d =>
              dsimp only
              rw [if_pos (beq_self_eq_true _), ih (textRun_right.1 h)]
          · rw [if_neg (mt beq_iff_eq.1 hr), ih ((textRun_other hs hl hr).1 h)]

/-- Every markup begins with a run of text, which may be empty. -/
theorem exists_textRun (cs : List Char) :
    ∃ text rest, cs = text ++ rest ∧ TextRun 0 false text rest :=
  ⟨_, _, (splitText_append 0 false cs).symm, textRun_splitText 0 false cs⟩

end Lexer

namespace Token

open Lexer

/-- What the lexer has just read, if that is a token after some others. -/
def modeAfter (mode : Mode) (t : Token) : Mode :=
  if t.kind = .command ∧ t.raw ∈ textCommands then .textCommand
  else if mode = .textCommand ∧ t = ⟨"\x7b", .openGroup⟩ then .textOpen
  else .math

/-- The text of a token has the shape of its kind, and it ends where the kind says it ends. -/
def Shaped (t : Token) (rest : List Char) : Prop :=
  match t.kind with
  | .command => ∃ name, t.raw.toList = '\\' :: name ∧ CommandName name rest
  | .number => NumberRun t.raw.toList rest
  | .text => TextRun 0 false t.raw.toList rest
  | .openGroup => t.raw = "\x7b"
  | .closeGroup => t.raw = "\x7d"
  | .char => ∃ c, t.raw.toList = [c] ∧ PlainChar c rest

/-- No token but that of a text is empty. -/
theorem Shaped.ne_empty {t : Token} {rest : List Char} (h : t.Shaped rest) (hk : t.kind ≠ .text) :
    t.raw ≠ "" := by
  obtain ⟨raw, kind⟩ := t
  rintro rfl
  cases kind with
  | command =>
    obtain ⟨name, hraw, -⟩ := h
    cases hraw
  | number =>
    obtain ⟨d, hd, -⟩ := h.digit
    cases hd
  | text => exact hk rfl
  | openGroup =>
    have hraw : "" = "\x7b" := h
    exact absurd hraw (by decide)
  | closeGroup =>
    have hraw : "" = "\x7d" := h
    exact absurd hraw (by decide)
  | char =>
    obtain ⟨c, hraw, -⟩ := h
    cases hraw

/-- The nearest of the tokens before, which come first, is a text command. -/
def AfterTextCommand : List Token → Prop
  | [] => False
  | t :: _ => t.kind = .command ∧ t.raw ∈ textCommands

/-- The nearest of the tokens before is the brace behind a text command. -/
def OpensText : List Token → Prop
  | [] => False
  | t :: before => t.kind = .openGroup ∧ AfterTextCommand before

end Token

namespace Lexer

open Token

/-- A token stands behind some others and a gap, before the rest of the markup. Only a text or a
closing brace stands behind the brace that opens the argument of a text command, without a gap, and
a text stands nowhere else. -/
structure Stands (before : List Token) (gap : List Char) (t : Token) (rest : List Char) : Prop where
  nonempty : t.raw ≠ ""
  between : Gap gap (t.raw.toList ++ rest)
  shape : t.Shaped rest
  text : t.kind = .text → OpensText before
  argument : OpensText before → gap = [] ∧ (t.kind = .text ∨ t.kind = .closeGroup)

/-- The markup is these tokens and the gaps between them, behind some other tokens. -/
inductive Lays : List Token → List Char → List Token → Prop
  | nil {before : List Token} {gap : List Char} :
      Gap gap [] → (OpensText before → gap = []) → Lays before gap []
  | cons {before : List Token} {gap : List Char} {t : Token} {rest : List Char}
      {ts : List Token} :
      Stands before gap t rest → Lays (t :: before) rest ts →
      Lays before (gap ++ (t.raw.toList ++ rest)) (t :: ts)

/-- The mode tells what it has to about the tokens before. -/
structure Mode.Behind (mode : Mode) (before : List Token) : Prop where
  command : mode = .textCommand ↔ AfterTextCommand before
  argument : mode = .textOpen ↔ OpensText before

/-- Markup begins outside of any argument. -/
theorem Mode.behind_nil : Mode.Behind .math [] :=
  ⟨⟨nofun, nofun⟩, ⟨nofun, nofun⟩⟩

/-- The mode behind a token is the one that goes with it. -/
theorem Mode.Behind.cons {mode : Mode} {before : List Token} (h : mode.Behind before) {t : Token}
    {rest : List Char} (ht : t.Shaped rest) : (modeAfter mode t).Behind (t :: before) := by
  obtain ⟨raw, kind⟩ := t
  by_cases hc : kind = .command ∧ raw ∈ textCommands
  · have hmode : modeAfter mode ⟨raw, kind⟩ = .textCommand := if_pos hc
    rw [hmode]
    refine ⟨⟨fun _ => hc, fun _ => rfl⟩, ⟨nofun, fun ho => ?_⟩⟩
    exact absurd (hc.1.symm.trans ho.1) (by decide)
  · -- a brace opens a text only right behind the command, which is what the mode has to tell
    by_cases ho : mode = .textCommand ∧ (⟨raw, kind⟩ : Token) = ⟨"\x7b", .openGroup⟩
    · have hmode : modeAfter mode ⟨raw, kind⟩ = .textOpen := by
        rw [modeAfter, if_neg hc, if_pos ho]
      rw [hmode]
      refine ⟨⟨nofun, fun hm => absurd hm hc⟩, ⟨fun _ => ?_, fun _ => rfl⟩⟩
      exact ⟨congrArg Token.kind ho.2, h.command.1 ho.1⟩
    · have hmode : modeAfter mode ⟨raw, kind⟩ = .math := by
        rw [modeAfter, if_neg hc, if_neg ho]
      rw [hmode]
      refine ⟨⟨nofun, fun hm => absurd hm hc⟩, ⟨nofun, fun hm => absurd ?_ ho⟩⟩
      -- an opening brace has no other text
      obtain ⟨rfl, hb⟩ := hm
      obtain rfl : raw = "\x7b" := ht
      exact ⟨h.command.2 hb, rfl⟩

/-- What a token in math mode begins with is not dropped. -/
theorem skipIgnored_shaped {t : Token} {rest : List Char} (h : t.Shaped rest)
    (hk : t.kind ≠ .text) :
    skipIgnored false (t.raw.toList ++ rest) = t.raw.toList ++ rest := by
  obtain ⟨raw, kind⟩ := t
  -- no kind of token begins with a blank or a percent sign
  cases kind with
  | command =>
    obtain ⟨name, hraw, -⟩ := h
    rw [hraw]
    exact skipIgnored_cons (by decide) (by decide) _
  | number =>
    obtain ⟨d, hd, -⟩ := h.digit
    obtain ⟨c, cs, hraw⟩ := List.exists_cons_of_ne_nil (List.ne_nil_of_mem hd)
    have hc := h.chars c (by rw [hraw]; exact List.mem_cons_self)
    rw [hraw]
    refine skipIgnored_cons ?_ ?_ _
    · rcases hc with hc | rfl
      · have := toNat_of_isDigit hc
        exact isBlank_of_visible (by omega) (by omega)
      · rfl
    · rintro rfl
      rcases hc with hc | hc
      · exact absurd hc (by decide)
      · exact absurd hc (by decide)
  | text => exact absurd rfl hk
  | openGroup =>
    obtain rfl : raw = "\x7b" := h
    exact skipIgnored_cons (by decide) (by decide) _
  | closeGroup =>
    obtain rfl : raw = "\x7d" := h
    exact skipIgnored_cons (by decide) (by decide) _
  | char =>
    obtain ⟨c, hraw, hc⟩ := h
    rw [hraw]
    refine skipIgnored_cons hc.blank ?_ _
    rintro rfl
    exact hc.special (by decide)

/-- Behind a command comes its argument, if it is a command for text. -/
theorem modeAfter_command (mode : Mode) (raw : String) :
    modeAfter mode ⟨raw, .command⟩ = .afterCommand raw := by
  have hno : ¬ (mode = .textCommand ∧ (⟨raw, .command⟩ : Token) = ⟨"\x7b", .openGroup⟩) :=
    fun h => absurd (congrArg Token.kind h.2) nofun
  rw [modeAfter, if_neg hno]
  simp only [true_and, Mode.afterCommand, List.contains_iff_mem]

/-- Behind anything but a command and an opening brace, the mode is that of formulas. -/
theorem modeAfter_of_ne {mode : Mode} {raw : String} {kind : TokenKind} (hc : kind ≠ .command)
    (ho : kind ≠ .openGroup) : modeAfter mode ⟨raw, kind⟩ = .math := by
  rw [modeAfter, if_neg (fun h => hc h.1), if_neg (fun h => ho (congrArg Token.kind h.2))]

/-- A backslash begins a command. -/
theorem mathToken?_slash {cs after : List Char} (h : skipIgnored false cs = '\\' :: after)
    (mode : Mode) :
    mathToken? mode cs =
      some (⟨String.ofList ('\\' :: (splitCommand after).1), .command⟩,
        modeAfter mode ⟨String.ofList ('\\' :: (splitCommand after).1), .command⟩,
        (splitCommand after).2) := by
  rw [modeAfter_command, mathToken?, h]
  rfl

/-- A character that is no brace is a token of its own. -/
theorem loneToken_of_ne {c : Char} (hl : c ≠ '{') (hr : c ≠ '}') :
    loneToken c = ⟨String.ofList [c], .char⟩ := by
  rw [loneToken, loneKind, if_neg (mt beq_iff_eq.1 hl), if_neg (mt beq_iff_eq.1 hr)]

/-- Anything else begins a number, or it is a token of its own. -/
theorem mathToken?_other {cs after : List Char} {c : Char}
    (h : skipIgnored false cs = c :: after) (hc : c ≠ '\\') (mode : Mode) :
    mathToken? mode cs = match splitNumber? (c :: after) with
      | some (digits, rest) => some (⟨String.ofList digits, .number⟩, .math, rest)
      | none => some (loneToken c, modeAfter mode (loneToken c), after) := by
  rw [mathToken?_of_ne_slash h hc]
  cases splitNumber? (c :: after) with
  | some found => rfl
  | none =>
    dsimp only
    -- only braces lead to another mode
    by_cases hl : c = '{'
    · subst hl
      cases mode <;> rfl
    · rw [if_neg (mt beq_iff_eq.1 hl)]
      by_cases hr : c = '}'
      · subst hr
        have hmode : modeAfter mode (loneToken '}') = .math :=
          modeAfter_of_ne (by decide) (by decide)
        rw [hmode]
        rfl
      · rw [if_neg (mt beq_iff_eq.1 hr), loneToken_of_ne hl hr,
          modeAfter_of_ne (by decide) (by decide)]

/-- A token of its own, before the rest of the markup. -/
theorem shaped_loneToken {c : Char} {rest : List Char} (hb : isBlank c = false) (hp : c ≠ '%')
    (hs : c ≠ '\\') (hn : splitNumber? (c :: rest) = none) :
    (loneToken c).kind ≠ .text ∧ (loneToken c).Shaped rest := by
  obtain ⟨hd, hpoint⟩ := splitNumber?_eq_none_iff.1 hn
  by_cases hl : c = '{'
  · subst hl
    exact ⟨by decide, rfl⟩
  · by_cases hr : c = '}'
    · subst hr
      exact ⟨by decide, rfl⟩
    · rw [loneToken_of_ne hl hr]
      refine ⟨by simp, c, String.toList_ofList, hb, hd, ?_, hpoint⟩
      simp [hs, hl, hr, hp]

/-- What is found behind the part that is skipped has the shape of its kind. -/
theorem shaped_of_mathToken? {mode mode' : Mode} {cs after rest : List Char} {c : Char} {t : Token}
    (hskip : skipIgnored false cs = c :: after) (h : mathToken? mode cs = some (t, mode', rest)) :
    mode' = modeAfter mode t ∧ t.kind ≠ .text ∧ t.Shaped rest ∧
      c :: after = t.raw.toList ++ rest := by
  obtain ⟨hb, hp⟩ := head_skipIgnored false cs c (by rw [hskip]; rfl)
  -- a command, a number, or a character on its own, in the order in which they are tried
  by_cases hs : c = '\\'
  · subst hs
    rw [mathToken?_slash hskip] at h
    obtain ⟨rfl, htail⟩ := Prod.mk.inj (Option.some.inj h)
    obtain ⟨rfl, rfl⟩ := Prod.mk.inj htail
    obtain ⟨happend, hname⟩ := splitCommand_eq_iff.1 (Prod.eta (splitCommand after)).symm
    refine ⟨rfl, by simp, ⟨_, String.toList_ofList, hname⟩, ?_⟩
    rw [String.toList_ofList, List.cons_append, ← happend]
  · rw [mathToken?_other hskip hs] at h
    cases hn : splitNumber? (c :: after) with
    | some found =>
      obtain ⟨digits, left⟩ := found
      rw [hn] at h
      obtain ⟨rfl, htail⟩ := Prod.mk.inj (Option.some.inj h)
      obtain ⟨rfl, rfl⟩ := Prod.mk.inj htail
      obtain ⟨happend, hrun⟩ := splitNumber?_eq_some_iff.1 hn
      refine ⟨(modeAfter_of_ne (by decide) (by decide)).symm, by simp, ?_, ?_⟩
      · rw [Token.Shaped, String.toList_ofList]
        exact hrun
      · rw [String.toList_ofList, ← happend]
    | none =>
      rw [hn] at h
      obtain ⟨rfl, htail⟩ := Prod.mk.inj (Option.some.inj h)
      obtain ⟨rfl, rfl⟩ := Prod.mk.inj htail
      obtain ⟨hk, hshape⟩ := shaped_loneToken hb hp hs hn
      refine ⟨rfl, hk, hshape, ?_⟩
      rw [loneToken, String.toList_ofList]
      rfl

/-- Where a number comes next, behind what is ignored, the token is the number. -/
theorem mathToken?_number {mode : Mode} {cs rest : List Char} {raw : String}
    (h : NumberRun raw.toList rest) (hskip : skipIgnored false cs = raw.toList ++ rest) :
    mathToken? mode cs = some (⟨raw, .number⟩, .math, rest) := by
  obtain ⟨d, hd, -⟩ := h.digit
  obtain ⟨c, digits, hraw⟩ := List.exists_cons_of_ne_nil (List.ne_nil_of_mem hd)
  -- a number begins with a digit or a point, so the lexer does not go for a command
  have hs : c ≠ '\\' := by
    rintro rfl
    rcases h.chars _ (by rw [hraw]; exact List.mem_cons_self) with hc | hc
    · exact absurd hc (by decide)
    · exact absurd hc (by decide)
  have hn := splitNumber?_eq_some_iff.2 ⟨rfl, h⟩
  rw [hraw, List.cons_append] at hskip hn
  rw [mathToken?_other hskip hs, hn]
  dsimp only
  rw [← hraw, String.ofList_toList]

/-- Where a plain character comes next, behind what is ignored, the token is the character. -/
theorem mathToken?_char {mode : Mode} {cs rest : List Char} {c : Char} (h : PlainChar c rest)
    (hskip : skipIgnored false cs = c :: rest) :
    mathToken? mode cs = some (⟨String.ofList [c], .char⟩, .math, rest) := by
  have hne : ∀ d ∈ ['\\', '{', '}', '%'], c ≠ d := by
    rintro d hd rfl
    exact h.special hd
  rw [mathToken?_other hskip (hne _ (by decide)), splitNumber?_eq_none_iff.2 ⟨h.digit, h.point⟩,
    loneToken_of_ne (hne _ (by decide)) (hne _ (by decide))]
  dsimp only
  rw [modeAfter_of_ne (by decide) (by decide)]

/-- A token that has the shape of its kind is found behind the part that is skipped. -/
theorem mathToken?_of_shaped {mode : Mode} {cs rest : List Char} {t : Token} (hk : t.kind ≠ .text)
    (hshape : t.Shaped rest) (hskip : skipIgnored false cs = t.raw.toList ++ rest) :
    mathToken? mode cs = some (t, modeAfter mode t, rest) := by
  obtain ⟨raw, kind⟩ := t
  cases kind with
  | command =>
    obtain ⟨name, hraw, hname⟩ := hshape
    obtain rfl : String.ofList ('\\' :: name) = raw := by rw [← hraw, String.ofList_toList]
    rw [String.toList_ofList, List.cons_append] at hskip
    rw [mathToken?_slash hskip, splitCommand_eq_iff.2 ⟨rfl, hname⟩]
  | number =>
    rw [mathToken?_number hshape hskip, modeAfter_of_ne (by decide) (by decide)]
  | text => exact absurd rfl hk
  | openGroup =>
    obtain rfl : raw = "\x7b" := hshape
    exact mathToken?_other hskip (by decide) mode
  | closeGroup =>
    obtain rfl : raw = "\x7d" := hshape
    exact mathToken?_other hskip (by decide) mode
  | char =>
    obtain ⟨c, hraw, hc⟩ := hshape
    obtain rfl : String.ofList [c] = raw := by rw [← hraw, String.ofList_toList]
    rw [String.toList_ofList, List.singleton_append] at hskip
    rw [mathToken?_char hc hskip, modeAfter_of_ne (by decide) (by decide)]

/-- A token in math mode, in terms of the markup. -/
theorem mathToken?_eq_some_iff {mode mode' : Mode} {cs rest : List Char} {t : Token} :
    mathToken? mode cs = some (t, mode', rest) ↔
      mode' = modeAfter mode t ∧ t.kind ≠ .text ∧ t.Shaped rest ∧
        ∃ gap, cs = gap ++ (t.raw.toList ++ rest) ∧ Gap gap (t.raw.toList ++ rest) := by
  constructor
  · intro h
    obtain ⟨gap, hcs, hgap⟩ := (gap_skipIgnored cs).1
    cases hskip : skipIgnored false cs with
    | nil =>
      rw [mathToken?, hskip] at h
      cases h
    | cons c after =>
      obtain ⟨hmode, hk, hshape, happend⟩ := shaped_of_mathToken? hskip h
      rw [hskip, happend] at hcs hgap
      exact ⟨hmode, hk, hshape, gap, hcs, hgap⟩
  · rintro ⟨rfl, hk, hshape, gap, rfl, hgap⟩
    exact mathToken?_of_shaped hk hshape
      ((skipIgnored_gap hgap).trans (skipIgnored_shaped hshape hk))

/-- No token comes exactly where everything is ignored. -/
theorem mathToken?_eq_none_iff {mode : Mode} {cs : List Char} :
    mathToken? mode cs = none ↔ Gap cs [] := by
  constructor
  · intro h
    obtain ⟨gap, hcs, hgap⟩ := (gap_skipIgnored cs).1
    cases hskip : skipIgnored false cs with
    | nil =>
      rw [hskip, List.append_nil] at hcs
      rw [hskip] at hgap
      rw [hcs]
      exact hgap
    -- whatever is left behind the gap begins a token
    | cons c after =>
      by_cases hs : c = '\\'
      · subst hs
        rw [mathToken?_slash hskip] at h
        cases h
      · rw [mathToken?_other hskip hs] at h
        split at h
        · cases h
        · cases h
  · intro h
    have hskip := skipIgnored_gap h
    rw [List.append_nil] at hskip
    rw [mathToken?, hskip]
    rfl

/-- Outside the argument of a text command, tokens are those of a formula. -/
theorem next?_of_ne {mode : Mode} (h : mode ≠ .textOpen) (cs : List Char) :
    next? mode cs = mathToken? mode cs :=
  if_neg h

/-- Behind the brace of a text command there is a text, the brace that closes it, or nothing. -/
theorem next?_textOpen {text rest : List Char} (h : TextRun 0 false text rest) :
    next? .textOpen (text ++ rest) =
      if text = [] then mathToken? .math rest
      else some (⟨String.ofList text, .text⟩, .math, rest) := by
  have hsplit := splitText_of_textRun h
  unfold next?
  rw [if_pos rfl, hsplit]
  cases text with
  | nil => rfl
  | cons c text => rfl

/-- A closing brace is a token by itself. -/
theorem mathToken?_rightBrace (after : List Char) :
    mathToken? .math ('}' :: after) = some (rightBrace, .math, after) := rfl

/-- In the argument of a text command comes its text, or the brace that closes it. -/
theorem next?_textOpen_eq_some_iff {before : List Token} (hopen : OpensText before)
    {mode' : Mode} {cs rest : List Char} {t : Token} :
    next? .textOpen cs = some (t, mode', rest) ↔
      mode' = modeAfter .textOpen t ∧ ∃ gap, cs = gap ++ (t.raw.toList ++ rest) ∧
        Stands before gap t rest := by
  constructor
  · intro h
    obtain ⟨text, left, rfl, hrun⟩ := exists_textRun cs
    rw [next?_textOpen hrun] at h
    split at h
    next hnil =>
      -- no text at all: the token is the brace that closes the argument
      subst hnil
      rcases hrun.closed with rfl | ⟨⟨after, rfl⟩, -⟩
      · cases h
      · rw [mathToken?_rightBrace] at h
        cases h
        exact ⟨rfl, [], rfl, by decide, .nil, rfl, nofun, fun _ => ⟨rfl, Or.inr rfl⟩⟩
    next hne =>
      cases h
      refine ⟨rfl, [], ?_, ?_, .nil, ?_, fun _ => hopen, fun _ => ⟨rfl, Or.inl rfl⟩⟩
      · rw [String.toList_ofList, List.nil_append]
      · rw [Ne, ← String.toList_inj, String.toList_ofList]
        exact hne
      · rw [Token.Shaped, String.toList_ofList]
        exact hrun
  · rintro ⟨rfl, gap, rfl, hs⟩
    obtain ⟨raw, kind⟩ := t
    obtain ⟨rfl, rfl | rfl⟩ := hs.argument hopen
    · have hrun : TextRun 0 false raw.toList rest := hs.shape
      have hne : raw.toList ≠ [] := fun hnil => hs.nonempty (String.toList_inj.1 hnil)
      rw [List.nil_append, next?_textOpen hrun, if_neg hne, String.ofList_toList]
      rfl
    · obtain rfl : raw = "\x7d" := hs.shape
      rfl

/-- The first step of the lexer, in terms of the markup and the tokens before. -/
theorem next?_eq_some_iff {mode mode' : Mode} {before : List Token} (hm : mode.Behind before)
    {cs rest : List Char} {t : Token} :
    next? mode cs = some (t, mode', rest) ↔
      mode' = modeAfter mode t ∧ ∃ gap, cs = gap ++ (t.raw.toList ++ rest) ∧
        Stands before gap t rest := by
  by_cases ho : mode = .textOpen
  · subst ho
    exact next?_textOpen_eq_some_iff (hm.argument.1 rfl)
  · have hno : ¬ OpensText before := mt hm.argument.2 ho
    rw [next?_of_ne ho, mathToken?_eq_some_iff]
    refine and_congr_right fun _ => ?_
    constructor
    · rintro ⟨hk, hshape, gap, hcs, hgap⟩
      exact ⟨gap, hcs, hshape.ne_empty hk, hgap, hshape, fun htext => absurd htext hk,
        fun h => absurd h hno⟩
    · rintro ⟨gap, hcs, hs⟩
      exact ⟨mt hs.text hno, hs.shape, gap, hcs, hs.between⟩

/-- Nothing is left where the lexer stops. -/
theorem next?_eq_none_iff {mode : Mode} {before : List Token} (hm : mode.Behind before)
    {cs : List Char} :
    next? mode cs = none ↔ Gap cs [] ∧ (OpensText before → cs = []) := by
  by_cases ho : mode = .textOpen
  · subst ho
    have hopen := hm.argument.1 rfl
    constructor
    · intro h
      obtain ⟨text, left, rfl, hrun⟩ := exists_textRun cs
      rw [next?_textOpen hrun] at h
      split at h
      next hnil =>
        subst hnil
        rcases hrun.closed with rfl | ⟨⟨after, rfl⟩, -⟩
        · exact ⟨.nil, fun _ => rfl⟩
        · cases h
      next => cases h
    · rintro ⟨-, hnil⟩
      rw [hnil hopen]
      rfl
  · rw [next?_of_ne ho, mathToken?_eq_none_iff]
    exact (and_iff_left fun h => absurd h (mt hm.argument.2 ho)).symm

/-- What the lexer returns lies in the markup. -/
theorem lays_scanFrom {mode : Mode} {before : List Token} (hm : mode.Behind before)
    (cs : List Char) : Lays before cs (scanFrom mode cs) := by
  -- on the steps of the lexer; the mode goes along with the tokens behind it
  induction mode, cs using scanFrom.induct generalizing before with
  | case1 mode cs hnone =>
    obtain ⟨hgap, hopen⟩ := (next?_eq_none_iff hm).1 hnone
    rw [scanFrom_of_none hnone]
    exact .nil hgap hopen
  | case2 mode cs t mode' rest hsome ih =>
    obtain ⟨rfl, gap, rfl, hs⟩ := (next?_eq_some_iff hm).1 hsome
    rw [scanFrom_of_next hsome]
    exact .cons hs (ih (hm.cons hs.shape))

/-- Only what the lexer returns lies in the markup. -/
theorem scanFrom_of_lays {mode : Mode} {before ts : List Token} {cs : List Char}
    (h : Lays before cs ts) (hm : mode.Behind before) : scanFrom mode cs = ts := by
  -- on the tokens, since what follows each of them fixes where the lexer stops
  induction h generalizing mode with
  | nil hgap hopen => exact scanFrom_of_none ((next?_eq_none_iff hm).2 ⟨hgap, hopen⟩)
  | cons hs _ ih =>
    rw [scanFrom_of_next ((next?_eq_some_iff hm).2 ⟨rfl, _, rfl, hs⟩), ih (hm.cons hs.shape)]

end Lexer

/-- The tokens of some markup are the tokens that lie in it. -/
theorem Token.scan_eq_iff_lays {markup : String} {ts : List Token} :
    Token.scan markup = ts ↔ Lexer.Lays [] markup.toList ts := by
  constructor
  · rintro rfl
    exact Lexer.lays_scanFrom Lexer.Mode.behind_nil markup.toList
  · intro h
    exact Lexer.scanFrom_of_lays h Lexer.Mode.behind_nil

end MathMarkup
