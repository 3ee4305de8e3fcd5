import MathMarkup.Name.Encode
import MathMarkup.Proofs.Scan

/-!
# Braces in markup

Some tokens are balanced if every closing brace closes an open one and none stays open at the end
(`Token.Balanced`). Markup is put together from pieces, and what a piece does to the open braces
must not depend on what stands around it: `Lexer.Nests k l s` says that wherever the markup `s`
stands, it closes `k` of the braces that are open and leaves `l` in their place. A piece may end in
a control word, since no letter is ever written right after one.

What is made of pieces that nest nests as well, and whether fixed markup does can be evaluated
(`Lexer.depthAfter`).
-/

namespace MathMarkup

/-! ## Open braces -/

namespace Token

/-- How many braces are open after some tokens, given how many were before, or nothing if some
closing brace closes none. -/
def openAfter (depth : Nat) : List Token → Option Nat
  | [] => some depth
  | t :: ts =>
    match t.kind with
    | .openGroup => openAfter (depth + 1) ts
    | .closeGroup =>
      match depth with
      | 0 => none
      | d + 1 => openAfter d ts
    | _ => openAfter depth ts

/-- Every opening brace is closed, and every closing brace closes one. -/
def Balanced (ts : List Token) : Prop :=
  openAfter 0 ts = some 0

instance (ts : List Token) : Decidable (Balanced ts) :=
  inferInstanceAs (Decidable (_ = _))

end Token

namespace Lexer

/-- How many braces are open after some markup. -/
def opens (mode : Mode) (depth : Nat) (cs : List Char) : Option Nat :=
  Token.openAfter depth (scanFrom mode cs)

/-- A character that begins no command and no comment and is no brace. -/
structure Inert (c : Char) : Prop where
  command : c ≠ '\\'
  comment : c ≠ '%'
  left : c ≠ '{'
  right : c ≠ '}'

instance (c : Char) : Decidable (Inert c) :=
  decidable_of_iff (c ≠ '\\' ∧ c ≠ '%' ∧ c ≠ '{' ∧ c ≠ '}')
    ⟨fun h => ⟨h.1, h.2.1, h.2.2.1, h.2.2.2⟩, fun h => ⟨h.1, h.2, h.3, h.4⟩⟩

/-- A sort of characters to which none belongs that means something. -/
theorem inert_of {p : Char → Bool} {c : Char} (h : p c = true)
    (hp : ['\\', '%', '{', '}'].any p = false := by decide) : Inert c := by
  have hne : ∀ d ∈ ['\\', '%', '{', '}'], c ≠ d := by
    rintro d hd rfl
    exact List.any_eq_false.1 hp c hd h
  exact ⟨hne _ (by simp), hne _ (by simp), hne _ (by simp), hne _ (by simp)⟩

theorem inert_of_isAlpha {c : Char} (h : c.isAlpha = true) : Inert c :=
  inert_of h

theorem inert_of_isDigit {c : Char} (h : c.isDigit = true) : Inert c :=
  inert_of h

/-- The characters of a number are inert. -/
theorem inert_of_splitNumber? {cs digits rest : List Char}
    (h : splitNumber? cs = some (digits, rest)) : ∀ c ∈ digits, Inert c := by
  -- a number is digits, and perhaps a point with more digits
  have hwhole : ∀ c ∈ cs.takeWhile Char.isDigit, Inert c := fun c hc =>
    inert_of_isDigit (List.all_eq_true.1 List.all_takeWhile c hc)
  have hfraction : ∀ ds : List Char, ∀ c ∈ fractionDigits ds, Inert c := by
    intro ds c hc
    unfold fractionDigits at hc
    split at hc
    · exact inert_of_isDigit (List.all_eq_true.1 List.all_takeWhile c hc)
    · exact absurd hc List.not_mem_nil
  unfold splitNumber? at h
  dsimp only at h
  split at h
  · split at h
    · cases h
    · obtain ⟨rfl, -⟩ := Prod.mk.inj (Option.some.inj h)
      exact hwhole
  · obtain ⟨rfl, -⟩ := Prod.mk.inj (Option.some.inj h)
    intro c hc
    rcases List.mem_append.1 hc with hc | hc
    · exact hwhole c hc
    · rcases List.mem_cons.1 hc with rfl | hc
      · decide
      · exact hfraction _ c hc

/-- A character that is not blank begins a number, or it is a token of its own. -/
theorem scanFrom_inert {c : Char} (hc : Inert c) (hb : isBlank c = false) (cs : List Char) :
    (∃ digits rest, c :: cs = digits ++ rest ∧ digits ≠ [] ∧ (∀ d ∈ digits, Inert d) ∧
      scanFrom .math (c :: cs) = ⟨String.ofList digits, .number⟩ :: scanFrom .math rest) ∨
    scanFrom .math (c :: cs) = ⟨String.ofList [c], .char⟩ :: scanFrom .math cs := by
  have hskip := skipIgnored_cons hb hc.comment cs
  have hnext : next? .math (c :: cs) =
      (splitNumber? (c :: cs)).elim (some (⟨String.ofList [c], .char⟩, .math, cs))
        fun found => some (⟨String.ofList found.1, .number⟩, .math, found.2) := by
    show mathToken? .math (c :: cs) = _
    rw [mathToken?_of_ne_slash hskip hc.command]
    -- an inert character is no brace, so the mode stays
    cases splitNumber? (c :: cs) with
    | some found => rfl
    | none => exact (if_neg (mt beq_iff_eq.1 hc.left)).trans (if_neg (mt beq_iff_eq.1 hc.right))
  cases hn : splitNumber? (c :: cs) with
  | none =>
    rw [hn] at hnext
    exact Or.inr (scanFrom_of_next hnext)
  | some found =>
    obtain ⟨digits, rest⟩ := found
    rw [hn] at hnext
    obtain ⟨happend, hne⟩ := splitNumber?_append hn
    exact Or.inl ⟨digits, rest, happend.symm, hne, inert_of_splitNumber? hn, scanFrom_of_next hnext⟩

/-- Inert characters leave the open braces as they are. The induction is on the length of the
markup, since a number takes several characters at once, and not always all that are inert. -/
theorem opens_inerts {ds : List Char} (hds : ∀ c ∈ ds, Inert c) (depth : Nat) (rest : List Char) :
    opens .math depth (ds ++ rest) = opens .math depth rest := by
  generalize hn : (ds ++ rest).length = n
  induction n using Nat.strongRecOn generalizing ds rest with
  | _ n ih =>
    subst hn
    cases ds with
    | nil => rfl
    | cons c ds =>
      rw [List.forall_mem_cons] at hds
      have hshort : opens .math depth (ds ++ rest) = opens .math depth rest :=
        ih _ (Nat.lt_succ_self _) hds.2 rest rfl
      rw [← hshort]
      cases hb : isBlank c with
      | true => exact congrArg (Token.openAfter depth) (scanFrom_blank hb (ds ++ rest))
      | false =>
        rcases scanFrom_inert hds.1 hb (ds ++ rest) with
          ⟨digits, after, heq, hne, hdigits, hscan⟩ | hscan
        · -- the number, and the same characters one by one
          obtain ⟨d, digits, rfl⟩ := List.exists_cons_of_ne_nil hne
          rw [List.cons_append] at heq
          obtain ⟨rfl, htail⟩ := List.cons.inj heq
          rw [List.forall_mem_cons] at hdigits
          have hafter : opens .math depth (digits ++ after) = opens .math depth after := by
            refine ih (digits ++ after).length ?_ hdigits.2 after rfl
            rw [← htail]
            exact Nat.lt_succ_self _
          rw [htail, hafter, opens, List.cons_append, hscan]
          rfl
        · rw [opens, List.cons_append, hscan]
          rfl

theorem opens_inert {c : Char} (hc : Inert c) (depth : Nat) (rest : List Char) :
    opens .math depth (c :: rest) = opens .math depth rest :=
  @opens_inerts [c] (fun _ hd => List.mem_singleton.1 hd ▸ hc) depth rest

theorem opens_leftBrace (depth : Nat) (rest : List Char) :
    opens .math depth ('{' :: rest) = opens .math (depth + 1) rest := by
  rw [opens, scanFrom_lone ⟨by decide, by decide, by decide, by decide, by decide⟩]
  rfl

theorem opens_rightBrace (depth : Nat) (rest : List Char) :
    opens .math (depth + 1) ('}' :: rest) = opens .math depth rest := by
  rw [opens, scanFrom_lone ⟨by decide, by decide, by decide, by decide, by decide⟩]
  rfl

/-! ## Commands -/

/-- A command is scanned as its backslash and its name. -/
theorem scanFrom_command (rest : List Char) :
    scanFrom .math ('\\' :: rest) =
      ⟨String.ofList ('\\' :: (splitCommand rest).1), .command⟩ ::
        scanFrom (.afterCommand (String.ofList ('\\' :: (splitCommand rest).1)))
          (splitCommand rest).2 :=
  scanFrom_of_next rfl

/-- A control symbol takes one character, whatever it is. -/
theorem opens_controlSymbol {c : Char} (hc : c.isAlpha = false) (depth : Nat) (rest : List Char) :
    opens .math depth ('\\' :: c :: rest) = opens .math depth rest := by
  have hsplit : splitCommand (c :: rest) = ([c], rest) := by
    rw [splitCommand, List.takeWhile_cons_of_neg (by rw [hc]; decide)]
    rfl
  have hmode : Mode.afterCommand (String.ofList ['\\', c]) = .math := by
    refine if_neg ?_
    rw [List.contains_iff_mem]
    intro hm
    -- the text commands are longer
    have hlength : ∀ w ∈ Token.textCommands, 2 < w.toList.length := by decide
    have := hlength _ hm
    rw [String.toList_ofList] at this
    exact absurd this (by simp)
  rw [opens, scanFrom_command, hsplit, hmode]
  rfl

/-- Whether the letters after a backslash are the name of a text command. -/
def namesText (letters : List Char) : Bool :=
  Token.textCommands.contains (String.ofList ('\\' :: letters))

/-- The letters of a control word might as well stand there without the backslash. -/
theorem opens_controlWord {c : Char} (hc : c.isAlpha = true) (depth : Nat) {rest : List Char}
    (ht : namesText ((c :: rest).takeWhile Char.isAlpha) = false) :
    opens .math depth ('\\' :: c :: rest) = opens .math depth (c :: rest) := by
  have hsplit : splitCommand (c :: rest) =
      ((c :: rest).takeWhile Char.isAlpha, (c :: rest).dropWhile Char.isAlpha) := by
    unfold splitCommand
    split
    next heq =>
      rw [List.takeWhile_cons_of_pos hc] at heq
      cases heq
    next => rfl
  have hmode : Mode.afterCommand
      (String.ofList ('\\' :: (c :: rest).takeWhile Char.isAlpha)) = .math :=
    if_neg (by rw [show Token.textCommands.contains _ = false from ht]; decide)
  have hletters : ∀ d ∈ (c :: rest).takeWhile Char.isAlpha, Inert d := fun _ hd =>
    inert_of_isAlpha (List.all_eq_true.1 List.all_takeWhile _ hd)
  rw [opens, scanFrom_command, hsplit, hmode]
  show opens .math depth _ = _
  rw [← opens_inerts hletters, List.takeWhile_append_dropWhile]

/-! ## Texts -/

/-- The text runs up to the brace behind it, if it is the argument of a text command. -/
def FitsText (text : List Char) : Prop :=
  ∀ rest, splitText 0 false (text ++ '}' :: rest) = (text, '}' :: rest)

/-- A text that fits in its braces changes no depth. -/
theorem scanFrom_textOpen {text : List Char} (h : FitsText text) (depth : Nat)
    (rest : List Char) :
    opens .textOpen depth (text ++ '}' :: rest) = opens .math depth ('}' :: rest) := by
  cases text with
  | nil =>
    have hnext : next? .textOpen ('}' :: rest) = some (⟨"\x7d", .closeGroup⟩, .math, rest) := by
      rw [next?, if_pos rfl, show splitText 0 false ('}' :: rest) = ([], '}' :: rest) from h rest]
      rfl
    have hmath : scanFrom .math ('}' :: rest) = ⟨"\x7d", .closeGroup⟩ :: scanFrom .math rest :=
      scanFrom_of_next rfl
    rw [List.nil_append, opens, scanFrom_of_next hnext, opens, hmath]
  | cons c text =>
    have hnext : next? .textOpen (c :: text ++ '}' :: rest) =
        some (⟨String.ofList (c :: text), .text⟩, .math, '}' :: rest) := by
      rw [next?, if_pos rfl, h rest]
    rw [opens, scanFrom_of_next hnext]
    rfl

/-- A text command with its argument leaves the open braces as they are. -/
theorem opens_text {text : List Char} (h : FitsText text) (depth : Nat) (rest : List Char) :
    opens .math depth ("\\text\x7b".toList ++ (text ++ '}' :: rest)) = opens .math depth rest := by
  have hcommand : scanFrom .math ("\\text\x7b".toList ++ (text ++ '}' :: rest)) =
      ⟨"\\text", .command⟩ :: ⟨"\x7b", .openGroup⟩ ::
        scanFrom .textOpen (text ++ '}' :: rest) := by
    have hnext : next? .math ("\\text\x7b".toList ++ (text ++ '}' :: rest)) =
        some (⟨"\\text", .command⟩, .textCommand, '{' :: (text ++ '}' :: rest)) := rfl
    rw [scanFrom_of_next hnext]
    exact congrArg _ (scanFrom_of_next rfl)
  rw [opens, hcommand]
  show opens .textOpen (depth + 1) (text ++ '}' :: rest) = _
  rw [scanFrom_textOpen h, opens_rightBrace]

/-- The braces in a text are matched, counting some that are open before it. -/
def matchedFrom (depth : Nat) : List Char → Bool
  | [] => depth == 0
  | c :: cs =>
    if c = '{' then matchedFrom (depth + 1) cs
    else if c = '}' then
      match depth with
      | 0 => false
      | d + 1 => matchedFrom d cs
    else matchedFrom depth cs

/-- Without backslashes, matched braces are all that a text needs. -/
theorem splitText_of_matchedFrom {text : List Char} (hb : '\\' ∉ text) {depth : Nat}
    (h : matchedFrom depth text = true) (rest : List Char) :
    splitText depth false (text ++ '}' :: rest) = (text, '}' :: rest) := by
  -- on the text, with the number of braces that are open
  induction text generalizing depth with
  | nil =>
    obtain rfl := beq_iff_eq.1 h
    rfl
  | cons c text ih =>
    rw [List.mem_cons, not_or] at hb
    have hc : (c == '\\') = false := beq_eq_false_iff_ne.2 (Ne.symm hb.1)
    unfold matchedFrom at h
    unfold splitText
    dsimp only [List.cons_append]
    rw [if_neg Bool.false_ne_true, hc, if_neg Bool.false_ne_true]
    by_cases hl : c = '{'
    · rw [if_pos hl] at h
      rw [if_pos (beq_iff_eq.2 hl), ih hb.2 h]
    · rw [if_neg hl] at h
      rw [if_neg (mt beq_iff_eq.1 hl)]
      by_cases hr : c = '}'
      · rw [if_pos hr] at h
        rw [if_pos (beq_iff_eq.2 hr)]
        cases depth with
        | zero => cases h
        | succ d =>
          dsimp only
          rw [ih hb.2 h]
      · rw [if_neg hr] at h
        rw [if_neg (mt beq_iff_eq.1 hr), ih hb.2 h]

/-! ## Pieces of markup that nest -/

/-- A control word stands at the end of the markup, and a letter after it would be read as part of
it. -/
def EndsInWord (cs : List Char) : Prop :=
  ∃ before letters, letters ≠ [] ∧ (∀ c ∈ letters, c.isAlpha = true) ∧
    cs = before ++ '\\' :: letters

theorem endsWithControlWord_of_endsInWord {s : String} (h : EndsInWord s.toList) :
    endsWithControlWord s = true := by
  obtain ⟨before, letters, hne, hletters, hs⟩ := h
  have hsplit : s = String.ofList before ++ String.ofList ('\\' :: letters) := by
    rw [← String.ofList_append, ← hs, String.ofList_toList]
  rw [hsplit]
  exact endsWithControlWord_letters ⟨letters, hne, hletters, String.toList_ofList⟩ _

/-- What ends in a control word does so behind anything. -/
theorem EndsInWord.append {cs : List Char} (h : EndsInWord cs) (before : List Char) :
    EndsInWord (before ++ cs) := by
  obtain ⟨left, letters, hne, hletters, rfl⟩ := h
  exact ⟨before ++ left, letters, hne, hletters, (List.append_assoc ..).symm⟩

/-- Wherever the markup stands, it closes some of the open braces and leaves some others open. A
letter right behind a control word at its end is ruled out. -/
def Nests (closed left : Nat) (s : String) : Prop :=
  ∀ depth rest, (EndsInWord s.toList → ∀ c ∈ rest.head?, c.isAlpha = false) →
    opens .math (closed + depth) (s.toList ++ rest) = opens .math (left + depth) rest

/-- Wherever the markup stands, it leaves the open braces as they are. -/
abbrev Neutral (s : String) : Prop :=
  Nests 0 0 s

/-- Markup that is neutral is balanced. -/
theorem Neutral.balanced {s : String} (h : Neutral s) : Token.Balanced (Token.scan s) := by
  have hs := h 0 [] fun _ _ hc => absurd hc (by simp)
  have hnil : opens .math 0 [] = some 0 := by rw [opens, scanFrom_nil, Token.openAfter]
  rw [List.append_nil] at hs
  exact hs.trans hnil

theorem not_isAlpha_of_extends {s : String} (h : extendsControlWord s = false) :
    ∀ c ∈ s.toList.head?, c.isAlpha = false := by
  intro c hc
  unfold extendsControlWord at h
  split at h
  next hs =>
    rw [hs] at hc
    cases hc
  next d cs hs =>
    rw [hs] at hc
    rw [← Option.some.inj hc]
    exact (Bool.or_eq_false_iff.1 h).1

variable {k l m : Nat} {a b : String}

/-- One piece behind another, unless the second begins with a letter that a control word at the end
of the first would take. -/
theorem Nests.append (ha : Nests k l a) (hb : Nests l m b)
    (h : EndsInWord a.toList → extendsControlWord b = false) : Nests k m (a ++ b) := by
  intro depth rest hrest
  rw [String.toList_append] at hrest ⊢
  rw [List.append_assoc, ha]
  · exact hb depth rest fun hends => hrest (hends.append a.toList)
  · intro hends c hc
    cases hlist : b.toList with
    | nil =>
      rw [hlist] at hc hrest
      rw [List.append_nil] at hrest
      exact hrest hends c hc
    | cons d ds =>
      refine not_isAlpha_of_extends (h hends) c ?_
      rw [hlist] at hc ⊢
      exact hc

/-- A piece that begins with no letter, behind any other one. -/
theorem Nests.before (ha : Nests k l a) (hb : Nests l m b) (h : extendsControlWord b = false) :
    Nests k m (a ++ b) :=
  ha.append hb fun _ => h

/-- Any piece behind one that does not end in a control word. -/
theorem Nests.after (ha : Nests k l a) (hb : Nests l m b) (h : endsWithControlWord a = false) :
    Nests k m (a ++ b) :=
  ha.append hb fun hends =>
    absurd (endsWithControlWord_of_endsInWord hends) (by rw [h]; decide)

/-- A piece may end as it wants if what comes next may begin as it wants. -/
theorem nests_of_forall {s : String} (h : ∀ depth rest,
    opens .math (k + depth) (s.toList ++ rest) = opens .math (l + depth) rest) : Nests k l s :=
  fun depth rest _ => h depth rest

theorem neutral_empty : Neutral "" :=
  nests_of_forall fun _ _ => rfl

theorem neutral_space : Neutral " " :=
  nests_of_forall fun depth rest => by
    rw [Nat.zero_add]
    exact opens_inert (by decide) depth rest

/-- Inert characters are neutral. -/
theorem neutral_inert {s : String} (h : ∀ c ∈ s.toList, Inert c) : Neutral s :=
  nests_of_forall fun depth rest => by
    rw [Nat.zero_add]
    exact opens_inerts h depth rest

/-- Braces that are open around a piece are none of its business. -/
theorem Nests.under (h : Nests k l a) (n : Nat) : Nests (k + n) (l + n) a := by
  intro depth rest hrest
  rw [Nat.add_assoc, Nat.add_assoc]
  exact h (n + depth) rest hrest

/-- What is neutral stays so within braces. -/
theorem Neutral.under (h : Neutral a) (n : Nat) : Nests n n a := by
  have hn := Nests.under h n
  rw [Nat.zero_add] at hn
  exact hn

/-- Two pieces with a space between them if the second would be read as part of the first. -/
theorem Nests.written (ha : Nests k l a) (hb : Nests l m b) :
    Nests k m (MathMarkup.append a b) := by
  unfold MathMarkup.append
  split
  next =>
    exact (ha.before (neutral_space.under l) (by decide)).after hb
      (endsWithControlWord_concat (by decide) (by decide) a)
  next h =>
    refine ha.append hb fun hends => ?_
    rw [endsWithControlWord_of_endsInWord hends, Bool.and_true] at h
    exact Bool.eq_false_iff.2 h

/-- Pieces one after the other, with the spaces that are needed. -/
theorem neutral_join {pieces : List String} (h : ∀ s ∈ pieces, Neutral s) :
    Neutral (join pieces) := by
  have hfold : ∀ {a}, Neutral a → Neutral (pieces.foldl MathMarkup.append a) := by
    induction pieces with
    | nil => exact id
    | cons s pieces ih =>
      rw [List.forall_mem_cons] at h
      exact fun ha => ih h.2 (Nests.written ha h.1)
  exact hfold neutral_empty

theorem extendsControlWord_append (h : extendsControlWord a = false) (hne : a ≠ "") (b : String) :
    extendsControlWord (a ++ b) = false := by
  unfold extendsControlWord at h ⊢
  rw [String.toList_append]
  cases ha : a.toList with
  | nil => exact absurd (String.toList_eq_nil_iff.1 ha) hne
  | cons c cs =>
    rw [ha] at h
    exact h

/-- Pieces with a separator between them that begins with no letter and ends in no control word. -/
theorem neutral_intercalate {separator : String} (hs : Neutral separator) (hne : separator ≠ "")
    (hb : extendsControlWord separator = false) (he : endsWithControlWord separator = false)
    {pieces : List String} (h : ∀ s ∈ pieces, Neutral s) :
    Neutral (separator.intercalate pieces) := by
  induction pieces with
  | nil =>
    rw [String.intercalate_nil]
    exact neutral_empty
  | cons s pieces ih =>
    rw [List.forall_mem_cons] at h
    cases pieces with
    | nil =>
      rw [String.intercalate_singleton]
      exact h.1
    | cons t pieces =>
      rw [String.intercalate_cons_cons, String.append_assoc]
      exact h.1.before (hs.after (ih h.2) he) (extendsControlWord_append hb hne _)

/-! ## Fixed markup -/

/-- How many braces are open after some markup without text commands and comments, or nothing if
there are such. -/
def depthAfter (depth : Nat) : List Char → Option Nat
  | [] => some depth
  | '\\' :: c :: cs =>
    if c.isAlpha then
      if namesText ((c :: cs).takeWhile Char.isAlpha) then none else depthAfter depth (c :: cs)
    else depthAfter depth cs
  | c :: cs =>
    if c == '{' then depthAfter (depth + 1) cs
    else if c == '}' then
      match depth with
      | 0 => none
      | d + 1 => depthAfter d cs
    else if decide (Inert c) then depthAfter depth cs
    else none

/-- Letters that no letter follows are all the letters that come. -/
theorem takeWhile_append_of_word {cs rest : List Char}
    (h : (∀ c ∈ cs, c.isAlpha = true) → ∀ c ∈ rest.head?, c.isAlpha = false) :
    (cs ++ rest).takeWhile Char.isAlpha = cs.takeWhile Char.isAlpha := by
  induction cs with
  | nil =>
    have hrest := h fun _ hc => absurd hc List.not_mem_nil
    exact (takeWhile_append_of_head (fun _ hc => absurd hc List.not_mem_nil) hrest).1
  | cons c cs ih =>
    rw [List.cons_append]
    cases hc : c.isAlpha with
    | false =>
      rw [List.takeWhile_cons_of_neg (by rw [hc]; decide),
        List.takeWhile_cons_of_neg (by rw [hc]; decide)]
    | true =>
      rw [List.takeWhile_cons_of_pos hc, List.takeWhile_cons_of_pos hc,
        ih fun hcs => h (List.forall_mem_cons.2 ⟨hc, hcs⟩)]

/-- The induction follows the evaluation. The letters of a control word are gone through twice, once
as its name and then as if the backslash was not there. -/
theorem opens_of_depthAfter {cs : List Char} (h : depthAfter k cs = some l) (depth : Nat)
    {rest : List Char} (hrest : EndsInWord cs → ∀ c ∈ rest.head?, c.isAlpha = false) :
    opens .math (k + depth) (cs ++ rest) = opens .math (l + depth) rest := by
  fun_induction depthAfter k cs with
  | case1 k =>
    rw [Option.some.inj h]
    rfl
  | case3 k c cs hc ht ih =>
    -- a control word, which ends before `rest` if it comes that far
    have hword : (c :: cs ++ rest).takeWhile Char.isAlpha = (c :: cs).takeWhile Char.isAlpha :=
      takeWhile_append_of_word fun hletters =>
        hrest ⟨[], c :: cs, List.cons_ne_nil _ _, hletters, rfl⟩
    have hletters := @opens_controlWord c hc (k + depth) (cs ++ rest)
      (by rw [← List.cons_append, hword]; exact Bool.eq_false_iff.2 ht)
    exact hletters.trans (ih h fun hends => hrest (hends.append ['\\']))
  | case4 k c cs hc ih =>
    -- a control symbol
    have hsymbol := opens_controlSymbol (Bool.eq_false_iff.2 hc) (k + depth) (cs ++ rest)
    exact hsymbol.trans (ih h fun hends => hrest (hends.append ['\\', c]))
  | case5 k c cs _ hl ih =>
    obtain rfl := beq_iff_eq.1 hl
    rw [List.cons_append, opens_leftBrace, Nat.add_right_comm]
    exact ih h fun hends => hrest (hends.append ['{'])
  | case7 c cs _ _ hr d ih =>
    obtain rfl := beq_iff_eq.1 hr
    rw [Nat.succ_eq_add_one, Nat.add_right_comm, List.cons_append, opens_rightBrace]
    exact ih h fun hends => hrest (hends.append ['}'])
  | case8 k c cs _ _ _ hc ih =>
    rw [List.cons_append, opens_inert (of_decide_eq_true hc)]
    exact ih h fun hends => hrest (hends.append [c])
  | case2 => cases h
  | case6 => cases h
  | case9 => cases h

/-- Fixed markup nests as it is evaluated to. -/
theorem nests_of_depthAfter {s : String} (h : depthAfter k s.toList = some l) : Nests k l s :=
  fun depth _ hrest => opens_of_depthAfter h depth hrest

/-! ## Arguments in braces -/

theorem nests_leftBrace (n : Nat) : Nests n (n + 1) "\x7b" :=
  nests_of_forall fun depth rest => by
    rw [Nat.add_right_comm]
    exact opens_leftBrace (n + depth) rest

theorem nests_rightBrace (n : Nat) : Nests (n + 1) n "\x7d" :=
  nests_of_forall fun depth rest => by
    rw [Nat.add_right_comm]
    exact opens_rightBrace (n + depth) rest

/-- Braces around neutral markup are neutral. -/
theorem neutral_braced (h : Neutral a) : Neutral (Name.braced a) :=
  ((nests_leftBrace 0).after (h.under 1) (by decide)).before (nests_rightBrace 0) (by decide)

/-- A command and its argument. -/
theorem neutral_command (ha : Neutral a) (hb : Neutral b) : Neutral (a ++ Name.braced b) := by
  refine ha.before (neutral_braced hb) ?_
  rw [Name.braced, String.append_assoc]
  exact extendsControlWord_append (by decide) (by decide) _

/-- Markup that opens a brace, an argument, and the brace that closes. -/
theorem neutral_around (ha : Nests 0 1 a) (he : endsWithControlWord a = false) (hb : Neutral b) :
    Neutral (a ++ b ++ "\x7d") :=
  (ha.after (hb.under 1) he).before (nests_rightBrace 0) (by decide)

/-- Markup behind a base, such as a script, that opens a brace, an argument, and the brace that
closes. -/
theorem neutral_behind {base : String} (hbase : Neutral base) (ha : Nests 0 1 a) (hne : a ≠ "")
    (hx : extendsControlWord a = false) (he : endsWithControlWord a = false) (hb : Neutral b) :
    Neutral (base ++ a ++ b ++ "\x7d") := by
  have haround := neutral_around ha he hb
  rw [String.append_assoc] at haround
  rw [String.append_assoc, String.append_assoc]
  exact hbase.before haround (extendsControlWord_append hx hne _)

/-- A text command and its argument. -/
theorem neutral_text {text : String} (h : FitsText text.toList) :
    Neutral ("\\text" ++ Name.braced text) :=
  nests_of_forall fun depth rest => by
    have hs : ("\\text" ++ Name.braced text).toList ++ rest =
        "\\text\x7b".toList ++ (text.toList ++ '}' :: rest) := by
      rw [Name.braced, String.toList_append, String.toList_append, String.toList_append]
      simp only [List.append_assoc]
      rfl
    rw [hs, Nat.zero_add]
    exact opens_text h depth rest

end Lexer
end MathMarkup
