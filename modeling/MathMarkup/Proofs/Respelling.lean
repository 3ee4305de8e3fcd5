import Mathlib.Data.List.Chain
import MathMarkup.Proofs.Layout
import MathMarkup.Token.Spelling

/-!
# Spelling tokens and cutting them again

The markup that `Token.spell` writes has no gaps but the spaces that keep a letter from a control
word, so it is not the markup that the tokens come from. They lie in it all the same
(`Lexer.lays_spelledFrom`), and where the lexer finds them again. The exception are numbers: nothing
keeps the digits apart that a blank has kept apart before (`Token.Apart`).

The induction goes along the tokens as they lie in the original markup. There every token ends
where its kind says it ends, and what has to be seen is that it ends there in front of the next
token as well (`Lexer.shaped_spelledFrom`).
-/

namespace MathMarkup

/-- The second of two neighbours is no number that the first would go on with. -/
def Token.Apart (t u : Token) : Prop :=
  u.kind = .number → t.kind ≠ .number ∧ t ≠ ⟨".", .char⟩

instance : DecidableRel Token.Apart := fun t u =>
  inferInstanceAs (Decidable (u.kind = .number → t.kind ≠ .number ∧ t ≠ ⟨".", .char⟩))

namespace Lexer

open Token

/-! ## What is written -/

/-- What comes between some markup and a fragment. -/
def joint (written fragment : String) : List Char :=
  if extendsControlWord fragment && endsWithControlWord written then [' '] else []

theorem toList_append (written fragment : String) :
    (append written fragment).toList =
      written.toList ++ (joint written fragment ++ fragment.toList) := by
  unfold append joint
  split
  · rw [String.toList_append, String.toList_append, List.append_assoc]
    rfl
  · rw [String.toList_append]
    rfl

/-- What the tokens add to the markup before them. -/
def spelledFrom (written : String) : List Token → List Char
  | [] => []
  | t :: ts => joint written t.raw ++ (t.raw.toList ++ spelledFrom (append written t.raw) ts)

theorem toList_foldl_append (written : String) (ts : List Token) :
    ((raws ts).foldl append written).toList = written.toList ++ spelledFrom written ts := by
  induction ts generalizing written with
  | nil => exact (List.append_nil _).symm
  | cons t ts ih =>
    show ((raws ts).foldl append (append written t.raw)).toList = _
    rw [ih, toList_append, spelledFrom, List.append_assoc, List.append_assoc]

/-- A joint is a space between a control word and a letter, or a star. -/
theorem joint_eq (written fragment : String) :
    joint written fragment = [] ∨ joint written fragment = [' '] ∧
      extendsControlWord fragment = true ∧ endsWithControlWord written = true := by
  unfold joint
  split
  next h =>
    exact Or.inr ⟨rfl, Bool.and_eq_true_iff.1 h⟩
  next => exact Or.inl rfl

theorem gap_joint (written fragment : String) (rest : List Char) :
    Gap (joint written fragment) rest := by
  rcases joint_eq written fragment with h | ⟨h, -⟩
  · rw [h]
    exact .nil
  · rw [h]
    exact .blank (by decide) .nil

/-- The markup ends in the token that was written last. -/
theorem append_eq (written fragment : String) :
    ∃ before, append written fragment = before ++ fragment := by
  unfold append
  split
  · exact ⟨_, rfl⟩
  · exact ⟨_, rfl⟩

/-! ## What comes behind a token -/

theorem Lays.eq_nil {before ts : List Token} (h : Lays before [] ts) : ts = [] := by
  generalize hcs : [] = cs at h
  cases h with
  | nil => rfl
  | cons hs _ =>
    have hraw := (List.append_eq_nil_iff.1 (List.append_eq_nil_iff.1 hcs.symm).2).1
    exact absurd (String.toList_inj.1 hraw) hs.nonempty

theorem Stands.exists_cons {before : List Token} {gap rest : List Char} {t : Token}
    (h : Stands before gap t rest) : ∃ c cs, t.raw.toList = c :: cs :=
  List.exists_cons_of_ne_nil fun hnil => h.nonempty (String.toList_inj.1 hnil)

theorem Stands.kind_ne_text {before : List Token} {gap rest : List Char} {t : Token}
    (h : Stands before gap t rest) (ho : ¬ OpensText before) : t.kind ≠ .text :=
  mt h.text ho

/-- No letter is written right behind a control word. -/
theorem head_spelledFrom_controlWord {written : String} (hw : endsWithControlWord written = true)
    {before : List Token} {cs : List Char} {ts : List Token} (h : Lays before cs ts) :
    ∀ c ∈ (spelledFrom written ts).head?, c.isAlpha = false := by
  intro c hc
  cases h with
  | nil => cases hc
  | @cons _ _ u _ us hs _ =>
    unfold spelledFrom joint at hc
    rw [hw, Bool.and_true] at hc
    split at hc
    next =>
      rw [← Option.some.inj hc]
      decide
    next hno =>
      obtain ⟨d, ds, hraw⟩ := hs.exists_cons
      rw [extendsControlWord, hraw, Bool.or_eq_true, not_or, Bool.not_eq_true] at hno
      rw [hraw] at hc
      rw [← Option.some.inj hc]
      exact hno.1

/-- Only numbers begin with digits, and single characters and numbers with points. -/
theorem Shaped.head {t : Token} {rest : List Char} (h : t.Shaped rest) (ht : t.kind ≠ .text)
    (hn : t.kind ≠ .number) :
    (∀ c ∈ t.raw.toList.head?, c.isDigit = false) ∧
      ∀ cs, t.raw.toList = '.' :: cs → t = ⟨".", .char⟩ := by
  obtain ⟨raw, kind⟩ := t
  -- commands and braces begin with a character that is neither a digit nor a point
  have hbrace : ∀ {s : String} {d : Char} {ds : List Char}, s.toList = d :: ds →
      d.isDigit = false → d ≠ '.' → (∀ c ∈ s.toList.head?, c.isDigit = false) ∧
        ∀ cs, s.toList = '.' :: cs → (⟨s, kind⟩ : Token) = ⟨".", .char⟩ := by
    intro s d ds hs hd hp
    rw [hs]
    refine ⟨fun c hc => ?_, fun cs hcs => absurd (List.cons.inj hcs).1 hp⟩
    rw [← Option.some.inj hc]
    exact hd
  cases kind with
  | command =>
    obtain ⟨name, hraw, -⟩ := h
    exact hbrace hraw (by decide) (by decide)
  | number => exact absurd rfl hn
  | text => exact absurd rfl ht
  | openGroup =>
    obtain rfl : raw = "\x7b" := h
    exact hbrace rfl (by decide) (by decide)
  | closeGroup =>
    obtain rfl : raw = "\x7d" := h
    exact hbrace rfl (by decide) (by decide)
  | char =>
    obtain ⟨c, hraw, hc⟩ := h
    refine ⟨fun d hd => ?_, fun cs hcs => ?_⟩
    · rw [hraw] at hd
      rw [← Option.some.inj hd]
      exact hc.digit
    · obtain ⟨rfl, -⟩ := List.cons.inj (hraw.symm.trans hcs)
      rw [← String.ofList_toList (s := raw), hraw]

/-- No digit is written right behind a token, if the next one is no number. -/
theorem head_spelledFrom {before : List Token} {cs : List Char} {ts : List Token}
    (h : Lays before cs ts) (ho : ¬ OpensText before) (hn : ∀ u ∈ ts.head?, u.kind ≠ .number)
    (written : String) : ∀ c ∈ (spelledFrom written ts).head?, c.isDigit = false := by
  intro c hc
  cases h with
  | nil => cases hc
  | @cons _ _ u rest us hs _ =>
    unfold spelledFrom at hc
    rcases joint_eq written u.raw with hj | ⟨hj, -⟩
    · obtain ⟨d, ds, hraw⟩ := hs.exists_cons
      rw [hj, List.nil_append, List.head?_append_of_ne_nil _ (by rw [hraw]; exact nofun)] at hc
      exact (Shaped.head hs.shape (hs.kind_ne_text ho) (hn u rfl)).1 c hc
    · rw [hj] at hc
      rw [← Option.some.inj hc]
      decide

/-- Nor is one written behind the point behind it. -/
theorem point_spelledFrom {before : List Token} {cs : List Char} {ts : List Token}
    (h : Lays before cs ts) (ho : ¬ OpensText before) (hn : ∀ u ∈ ts.head?, u.kind ≠ .number)
    (hts : ts.IsChain Apart) (written : String) :
    ∀ after, spelledFrom written ts = '.' :: after → ∀ c ∈ after.head?, c.isDigit = false := by
  intro after hafter
  cases h with
  | nil => cases hafter
  | @cons _ _ u rest us hs hl =>
    unfold spelledFrom at hafter
    rcases joint_eq written u.raw with hj | ⟨hj, -⟩
    · rw [hj, List.nil_append] at hafter
      obtain ⟨d, ds, hraw⟩ := hs.exists_cons
      rw [hraw, List.cons_append] at hafter
      obtain ⟨rfl, rfl⟩ := List.cons.inj hafter
      obtain rfl := (Shaped.head hs.shape (hs.kind_ne_text ho) (hn u rfl)).2 ds hraw
      obtain rfl : ds = [] := (List.cons.inj hraw).2.symm
      -- the point is a character, so the token behind it is no number either
      refine head_spelledFrom hl (fun ho => absurd ho.1 nofun) (fun v hv hnumber => ?_) _
      obtain ⟨us', rfl⟩ : ∃ us', us = v :: us' := by
        cases us with
        | nil => cases hv
        | cons w us => exact ⟨us, by rw [Option.some.inj hv]⟩
      exact ((List.isChain_cons_cons.1 hts).1 hnumber).2 rfl
    · rw [hj] at hafter
      exact absurd (List.cons.inj hafter).1 (by decide)

theorem Gap.eq_nil {gap rest after : List Char} {c : Char} (h : Gap gap rest)
    (hg : gap ++ rest = c :: after) (hb : isBlank c = false) (hc : c ≠ '%') : gap = [] := by
  cases h with
  | nil => rfl
  | blank hblank _ =>
    obtain ⟨rfl, -⟩ := List.cons.inj hg
    rw [hblank] at hb
    cases hb
  | comment _ _ _ => exact absurd (List.cons.inj hg).1.symm hc

/-- No space is written before a closing brace. -/
theorem spelledFrom_rightBrace {before : List Token} {after : List Char} {ts : List Token}
    (h : Lays before ('}' :: after) ts) (written : String) :
    ∃ after', spelledFrom written ts = '}' :: after' := by
  generalize hcs : '}' :: after = cs at h
  cases h with
  | nil hgap _ =>
    have hnil := hgap.eq_nil ((List.append_nil _).trans hcs.symm) (by decide) (by decide)
    rw [hnil] at hcs
    cases hcs
  | @cons _ gap u rest us hs _ =>
    obtain rfl := hs.between.eq_nil hcs.symm (by decide) (by decide)
    obtain ⟨d, ds, hraw⟩ := hs.exists_cons
    rw [List.nil_append, hraw, List.cons_append] at hcs
    obtain ⟨rfl, -⟩ := List.cons.inj hcs
    have hletter : extendsControlWord u.raw = false := by
      rw [extendsControlWord, hraw]
      rfl
    unfold spelledFrom joint
    rw [hletter, Bool.false_and, if_neg Bool.false_ne_true, hraw]
    exact ⟨_, rfl⟩

/-- A token ends where its kind says it ends, in front of the tokens behind it as they are
written. -/
theorem shaped_spelledFrom {before : List Token} {gap rest : List Char} {t : Token}
    {ts : List Token} (hs : Stands before gap t rest) (hl : Lays (t :: before) rest ts)
    (hts : (t :: ts).IsChain Apart) (written : String) :
    t.Shaped (spelledFrom (append written t.raw) ts) := by
  have hnext : ∀ u ∈ ts.head?, Apart t u := by
    intro u hu
    cases ts with
    | nil => cases hu
    | cons v ts => exact Option.some.inj hu ▸ (List.isChain_cons_cons.1 hts).1
  obtain ⟨raw, kind⟩ := t
  cases kind with
  | command =>
    obtain ⟨name, hraw, hname⟩ := hs.shape
    refine ⟨name, hraw, ?_⟩
    cases hname with
    | word hne hletters _ =>
      obtain ⟨front, hfront⟩ := append_eq written raw
      have hword := endsWithControlWord_letters ⟨name, hne, hletters, hraw⟩ front
      rw [← hfront] at hword
      exact .word hne hletters (head_spelledFrom_controlWord hword hl)
    | symbol hc => exact .symbol hc
    | slash =>
      -- a lone backslash ends the markup
      obtain rfl := hl.eq_nil
      exact .slash
  | number =>
    have hrun : NumberRun raw.toList rest := hs.shape
    have ho : ¬ OpensText (⟨raw, .number⟩ :: before) := fun ho => absurd ho.1 nofun
    have hn : ∀ u ∈ ts.head?, u.kind ≠ .number := fun u hu hnumber =>
      (hnext u hu hnumber).1 rfl
    exact
      { chars := hrun.chars
        digit := hrun.digit
        point := hrun.point
        last := hrun.last
        digits := head_spelledFrom hl ho hn _
        fraction := fun _ => point_spelledFrom hl ho hn hts.tail _ }
  | text =>
    have hrun : TextRun 0 false raw.toList rest := hs.shape
    refine ⟨hrun.nested, ?_⟩
    rcases hrun.closed with rfl | ⟨⟨after, rfl⟩, hcount⟩
    · obtain rfl := hl.eq_nil
      exact Or.inl rfl
    · exact Or.inr ⟨spelledFrom_rightBrace hl _, hcount⟩
  | openGroup => exact hs.shape
  | closeGroup => exact hs.shape
  | char =>
    obtain ⟨c, hraw, hc⟩ := hs.shape
    refine ⟨c, hraw, hc.blank, hc.digit, hc.special, ?_⟩
    rintro rfl
    refine head_spelledFrom hl (fun ho => absurd ho.1 nofun) (fun u hu hnumber => ?_) _
    refine (hnext u hu hnumber).2 ?_
    rw [← String.ofList_toList (s := raw), hraw]

theorem lays_spelledFrom {before : List Token} {cs : List Char} {ts : List Token}
    (h : Lays before cs ts) (hts : ts.IsChain Apart) {written : String}
    (hw : OpensText before → endsWithControlWord written = false) :
    Lays before (spelledFrom written ts) ts := by
  induction h generalizing written with
  | nil => exact .nil .nil fun _ => rfl
  | @cons before gap t rest ts hs hl ih =>
    refine .cons ⟨hs.nonempty, gap_joint _ _ _, shaped_spelledFrom hs hl hts written, hs.text,
      fun ho => ⟨?_, (hs.argument ho).2⟩⟩ (ih hts.tail fun ho => ?_)
    · rw [joint, hw ho, Bool.and_false]
      rfl
    · -- the brace of a text command has just been written
      obtain ⟨raw, kind⟩ := t
      obtain rfl : kind = .openGroup := ho.1
      obtain rfl : raw = "\x7b" := hs.shape
      obtain ⟨front, hfront⟩ := append_eq written "\x7b"
      rw [hfront]
      exact @endsWithControlWord_concat '{' (by decide) (by decide) front

end Lexer

/-- Where no number comes right behind a number or a point, the tokens of some markup are those of
the markup that they spell. -/
theorem Token.scan_spell_scan {markup : String} (h : (Token.scan markup).IsChain Token.Apart) :
    Token.scan (Token.spell (Token.scan markup)) = Token.scan markup := by
  have hlays := Lexer.lays_scanFrom Lexer.Mode.behind_nil markup.toList
  have hspelled := @Lexer.lays_spelledFrom _ _ _ hlays h "" nofun
  have htext : (Token.spell (Token.scan markup)).toList =
      Lexer.spelledFrom "" (Token.scan markup) := Lexer.toList_foldl_append "" _
  rw [Token.scan, htext]
  exact Lexer.scanFrom_of_lays hspelled Lexer.Mode.behind_nil

theorem Token.scan_spell_scan_gaps :
    (Token.scan "\\frac 1x % half\n\\text \x7b a\\\x7d\x7d\\alpha *").IsChain Token.Apart ∧
      Token.spell (Token.scan "\\frac 1x % half\n\\text \x7b a\\\x7d\x7d\\alpha *") =
        "\\frac1x\\text\x7b a\\\x7d\x7d\\alpha *" ∧
      Token.scan "\\frac1x\\text\x7b a\\\x7d\x7d\\alpha *" =
        Token.scan "\\frac 1x % half\n\\text \x7b a\\\x7d\x7d\\alpha *" := by
  have h : (Token.scan "\\frac 1x % half\n\\text \x7b a\\\x7d\x7d\\alpha *").IsChain
      Token.Apart := by decide +kernel
  have hspell : Token.spell (Token.scan "\\frac 1x % half\n\\text \x7b a\\\x7d\x7d\\alpha *") =
      "\\frac1x\\text\x7b a\\\x7d\x7d\\alpha *" := by decide +kernel
  have hscan := Token.scan_spell_scan h
  rw [hspell] at hscan
  exact ⟨h, hspell, hscan⟩

end MathMarkup
