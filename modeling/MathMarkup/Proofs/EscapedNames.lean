import Mathlib.Data.List.TakeWhile
import MathMarkup.Proofs.PlainNames

/-!
# Names that are written as they stand

A name that does not come apart is written upright as it stands, with a backslash before each
character that means something in markup. What that is cut into is one token for each character,
except that digits stay together (`scanFrom_escapeChars`), and the name is read off these tokens
again.

Two such characters are not among the escaped ones. A backslash begins a command, and there is none
in any name that is read (`slashless_of_decode`). A caret takes the token after it as a superscript;
that is what the name is read as if all there is behind the first caret are such superscripts
(`Superscripted`), and if there is anything else the tokens are taken as they stand. Blanks other
than the space are dropped, and a single token is marked as upright. These are all the names that do
not come back (`decode_encode_escaped_iff`).
-/

namespace MathMarkup
namespace Name

open Lexer

/-! ## Backslashes -/

/-- No name that some markup writes has a backslash in it. -/
theorem slashless_of_decode {markup name : String} (h : decode markup = some name) :
    Slashless name := by
  have hl := Token.led_scanFrom .math markup.toList
  unfold decode at h
  dsimp only at h
  split at h
  next hread =>
    rw [← Option.some.inj h]
    exact slashless_of_readIdentifier? hl hread
  next =>
    obtain ⟨hname, -⟩ := Option.filter_eq_some_iff.1 h
    obtain ⟨parts, hbody, rfl⟩ := Option.map_eq_some_iff.1 hname
    -- a body with a text command in it could not be read, so there is no verbatim text in it
    have hcommand : ∀ t ∈ Token.scan markup, ¬ (t.kind = .command ∧ t.raw ∈ Token.textCommands) := by
      rintro t ht ⟨hkind, hraw⟩
      refine not_mem_of_body? (wordless_textCommands t.raw hraw) hbody ?_
      rw [← hkind]
      exact ht
    rw [← List.append_nil (scanFrom .math markup.toList)] at hl
    exact (slashless_of_body? Parts.slashless_empty (hl.legible hcommand) hbody).name

/-! ## The tokens of escaped text -/

/-- A name with its escapes. -/
def escapeChars (name : List Char) : List Char :=
  name.flatMap fun c => if escapedChars.contains c then ['\\', c] else [c]

/-- The characters of an escaped name. -/
theorem toList_escape (name : List Char) : (escape name).toList = escapeChars name :=
  String.toList_ofList

/-- A character that needs it gets a backslash. -/
theorem escapeChars_escaped {c : Char} (hc : c ∈ escapedChars) (cs : List Char) :
    escapeChars (c :: cs) = '\\' :: c :: escapeChars cs := by
  rw [escapeChars, List.flatMap_cons, if_pos (List.contains_iff_mem.2 hc)]
  rfl

/-- Characters that need no backslash stay as they are. -/
theorem escapeChars_plain {ds : List Char} (hds : ∀ c ∈ ds, c ∉ escapedChars) (cs : List Char) :
    escapeChars (ds ++ cs) = ds ++ escapeChars cs := by
  induction ds with
  | nil => rfl
  | cons d ds ih =>
    obtain ⟨hd, hds⟩ := List.forall_mem_cons.1 hds
    have hno : ¬ escapedChars.contains d = true := fun h => hd (List.contains_iff_mem.1 h)
    rw [List.cons_append, escapeChars, List.flatMap_cons, if_neg hno, ← escapeChars, ih hds]
    rfl

/-- A character that needs no backslash stays as it is. -/
theorem escapeChars_cons {c : Char} (hc : c ∉ escapedChars) (cs : List Char) :
    escapeChars (c :: cs) = c :: escapeChars cs :=
  escapeChars_plain (List.forall_mem_singleton.2 hc) cs

/-- What comes first is a backslash, or it comes first in the name, or in what follows it. -/
theorem head_escapeChars (cs rest : List Char) : ∀ d ∈ (escapeChars cs ++ rest).head?,
    d = '\\' ∨ d ∈ cs.head? ∨ cs = [] ∧ d ∈ rest.head? := by
  intro d hd
  cases cs with
  | nil => exact Or.inr (Or.inr ⟨rfl, hd⟩)
  | cons c cs =>
    by_cases hc : c ∈ escapedChars
    · rw [escapeChars_escaped hc] at hd
      exact Or.inl (Option.some.inj hd).symm
    · rw [escapeChars_cons hc] at hd
      exact Or.inr (Or.inl hd)

/-- Where the name does not go on with a digit, its escaped form does not either. -/
theorem head_not_digit {cs rest : List Char} (hcs : ∀ d ∈ cs.head?, d.isDigit = false)
    (hr : Stops rest) : ∀ d ∈ (escapeChars cs ++ rest).head?, d.isDigit = false := by
  intro d hd
  rcases head_escapeChars cs rest d hd with rfl | hd | ⟨-, hd⟩
  · rfl
  · exact hcs d hd
  · exact (hr d hd).2.1

/-- A number in the name is one in its escaped form. -/
theorem numberRun_escapeChars {ds cs rest : List Char} (h : NumberRun ds cs) (hr : Stops rest) :
    NumberRun ds (escapeChars cs ++ rest) := by
  refine { h with digits := head_not_digit h.digits hr, fraction := fun hpoint after hafter => ?_ }
  cases cs with
  | nil =>
    have hrest : rest = '.' :: after := hafter
    exact absurd rfl (hr '.' (by rw [hrest]; rfl)).2.2
  | cons c cs =>
    by_cases hc : c ∈ escapedChars
    · rw [escapeChars_escaped hc] at hafter
      exact absurd (List.cons.inj hafter).1 (by decide)
    · rw [escapeChars_cons hc] at hafter
      obtain ⟨rfl, rfl⟩ := List.cons.inj hafter
      exact head_not_digit (h.fraction hpoint cs rfl) hr

/-- Tokens of escaped text: escapes, other characters, and numbers. -/
inductive Piece : Token → Prop where
  | escape {c : Char} (hc : c ∈ escapedChars) : Piece ⟨String.ofList ['\\', c], .command⟩
  | char {c : Char} (hc : c ∉ escapedChars) : Piece ⟨String.ofList [c], .char⟩
  | number {ds : List Char} (hds : ∀ d ∈ ds, d.isDigit = true ∨ d = '.') :
      Piece ⟨String.ofList ds, .number⟩

/-- What a token of escaped text stands for. -/
def spelled (t : Token) : List Char :=
  if t.kind = .command then t.raw.toList.drop 1 else t.raw.toList

/-- An escaped character spells the character. -/
theorem spelled_escape (c : Char) : spelled ⟨String.ofList ['\\', c], .command⟩ = [c] := by
  rw [spelled, if_pos rfl, String.toList_ofList]
  rfl

theorem spelled_char (c : Char) : spelled ⟨String.ofList [c], .char⟩ = [c] := by
  rw [spelled, if_neg TokenKind.noConfusion, String.toList_ofList]

theorem spelled_number (ds : List Char) : spelled ⟨String.ofList ds, .number⟩ = ds := by
  rw [spelled, if_neg TokenKind.noConfusion, String.toList_ofList]

/-- A character that stays: a space is escaped, and other blanks are dropped. -/
def stays (c : Char) : Bool :=
  !isBlank c || c == ' '

/-- All blanks but the space are lost. -/
theorem stays_iff {c : Char} : stays c = true ↔ (isBlank c = true → c = ' ') := by
  rw [stays, Bool.or_eq_true, Bool.not_eq_true', beq_iff_eq]
  cases isBlank c <;> simp

/-- Digits and points need no backslash and stay. -/
theorem plain_of_number {d : Char} (h : d.isDigit = true ∨ d = '.') :
    d ∉ escapedChars ∧ stays d = true := by
  rcases h with h | rfl
  · have hval := toNat_of_isDigit h
    have hall : (escapedChars.all fun e => !e.isDigit) = true := by decide
    refine ⟨fun hd => ?_, ?_⟩
    · have hno := List.all_eq_true.1 hall d hd
      rw [h] at hno
      exact absurd hno Bool.false_ne_true
    rw [stays, isBlank_of_visible (by omega) (by omega)]
    rfl
  · decide

/-- A backslash with the character behind it is one token. -/
theorem scanFrom_escape {c : Char} (hc : c ∈ escapedChars) (rest : List Char) :
    scanFrom .math ('\\' :: c :: rest) =
      ⟨String.ofList ['\\', c], .command⟩ :: scanFrom .math rest := by
  simp only [escapedChars, List.mem_cons, List.not_mem_nil, or_false] at hc
  rcases hc with rfl | rfl | rfl | rfl | rfl | rfl | rfl | rfl <;> exact scanFrom_of_next rfl

/-- Some text is cut into the tokens, which stand for what stays of it. -/
structure Cuts (cs : List Char) (ts : List Token) : Prop where
  pieces : ∀ t ∈ ts, Piece t
  text : ts.flatMap spelled = cs.filter stays
  scan : ∀ rest, Stops rest → scanFrom .math (escapeChars cs ++ rest) = ts ++ scanFrom .math rest

section Cuts

variable {c : Char} {cs ds : List Char} {ts : List Token} (h : Cuts cs ts)
include h

/-- An escaped character in front is one more piece. -/
theorem Cuts.escape (hc : c ∈ escapedChars) :
    Cuts (c :: cs) (⟨String.ofList ['\\', c], .command⟩ :: ts) where
  pieces := List.forall_mem_cons.2 ⟨.escape hc, h.pieces⟩
  text := by
    have hstays : escapedChars.all stays = true := by decide
    rw [List.flatMap_cons, spelled_escape, h.text,
      List.filter_cons_of_pos (List.all_eq_true.1 hstays c hc)]
    rfl
  scan rest hr := by
    rw [escapeChars_escaped hc, List.cons_append, List.cons_append, scanFrom_escape hc,
      h.scan rest hr]
    rfl

/-- A blank in front makes no piece. -/
theorem Cuts.blank (hc : c ∉ escapedChars) (hb : isBlank c = true) : Cuts (c :: cs) ts where
  pieces := h.pieces
  text := by
    have hdropped : ¬ stays c = true := by
      intro hstays
      rw [stays, hb, Bool.not_true, Bool.false_or, beq_iff_eq] at hstays
      rw [hstays] at hc
      exact hc (by decide)
    rw [h.text, List.filter_cons_of_neg hdropped]
  scan rest hr := by
    rw [escapeChars_cons hc, List.cons_append, scanFrom_blank hb, h.scan rest hr]

/-- A number in front is one more piece, up to where it ends. -/
theorem Cuts.number (hrun : NumberRun ds cs) :
    Cuts (ds ++ cs) (⟨String.ofList ds, .number⟩ :: ts) where
  pieces := List.forall_mem_cons.2 ⟨.number hrun.chars, h.pieces⟩
  text := by
    rw [List.flatMap_cons, spelled_number, h.text, List.filter_append,
      List.filter_eq_self.2 fun d hd => (plain_of_number (hrun.chars d hd)).2]
  scan rest hr := by
    have hnumber : NumberRun (String.ofList ds).toList (escapeChars cs ++ rest) := by
      rw [String.toList_ofList]
      exact numberRun_escapeChars hrun hr
    have hskip := skipIgnored_shaped (t := ⟨String.ofList ds, .number⟩) hnumber
      TokenKind.noConfusion
    have hmath : next? .math _ = _ := mathToken?_number hnumber hskip
    have hnext := scanFrom_of_next hmath
    rw [String.toList_ofList] at hnext
    rw [escapeChars_plain fun d hd => (plain_of_number (hrun.chars d hd)).1, List.append_assoc,
      hnext, h.scan rest hr]
    rfl

/-- Any other character in front is one more piece. -/
theorem Cuts.char (hc : c ∉ escapedChars) (hs : c ≠ '\\') (hb : isBlank c = false)
    (hn : splitNumber? (c :: cs) = none) : Cuts (c :: cs) (⟨String.ofList [c], .char⟩ :: ts) where
  pieces := List.forall_mem_cons.2 ⟨.char hc, h.pieces⟩
  text := by
    have hstays : stays c = true := by rw [stays, hb, Bool.not_false, Bool.true_or]
    rw [List.flatMap_cons, spelled_char, h.text, List.filter_cons_of_pos hstays]
    rfl
  scan rest hr := by
    obtain ⟨hdigit, hpoint⟩ := splitNumber?_eq_none_iff.1 hn
    have hne : ∀ d ∈ escapedChars, c ≠ d := fun d hd he => hc (he ▸ hd)
    have hchar : PlainChar c (escapeChars cs ++ rest) := by
      refine ⟨hb, hdigit, ?_, fun he => head_not_digit (hpoint he) hr⟩
      simp only [List.mem_cons, List.not_mem_nil, or_false, not_or]
      exact ⟨hs, hne '{' (by decide), hne '}' (by decide), hne '%' (by decide)⟩
    have hskip : skipIgnored false (c :: (escapeChars cs ++ rest)) = c :: (escapeChars cs ++ rest) :=
      skipIgnored_cons hb (hne '%' (by decide)) _
    have hmath : next? .math _ = _ := mathToken?_char hchar hskip
    have hnext := scanFrom_of_next hmath
    rw [escapeChars_cons hc, List.cons_append, hnext, h.scan rest hr]
    rfl

end Cuts

/-- Text without backslashes is cut into tokens that stand for what stays of it. -/
theorem exists_cuts : ∀ cs : List Char, '\\' ∉ cs → ∃ ts, Cuts cs ts
  | [], _ => ⟨[], nofun, rfl, fun _ _ => rfl⟩
  | c :: cs, h => by
    -- a number may take several characters, so this is no induction on the list
    have hslash : '\\' ∉ cs := fun hm => h (List.mem_cons_of_mem c hm)
    have hs : c ≠ '\\' := fun he => h (he ▸ List.mem_cons_self)
    by_cases hc : c ∈ escapedChars
    · obtain ⟨ts, hts⟩ := exists_cuts cs hslash
      exact ⟨_, hts.escape hc⟩
    by_cases hb : isBlank c = true
    · obtain ⟨ts, hts⟩ := exists_cuts cs hslash
      exact ⟨_, hts.blank hc hb⟩
    cases hn : splitNumber? (c :: cs) with
    | none =>
      obtain ⟨ts, hts⟩ := exists_cuts cs hslash
      exact ⟨_, hts.char hc hs (Bool.eq_false_iff.2 hb) hn⟩
    | some found =>
      obtain ⟨ds, after⟩ := found
      obtain ⟨happend, hrun⟩ := splitNumber?_eq_some_iff.1 hn
      have hlen : after.length ≤ cs.length := by
        obtain ⟨d, hd, -⟩ := hrun.digit
        have hpos := List.length_pos_of_mem hd
        have htotal := congrArg List.length happend
        rw [List.length_append, List.length_cons] at htotal
        omega
      obtain ⟨ts, hts⟩ := exists_cuts after fun hm => h (happend ▸ List.mem_append_right ds hm)
      rw [happend]
      exact ⟨_, hts.number hrun⟩
termination_by cs => cs.length
decreasing_by
  all_goals
    rw [List.length_cons]
    omega

/-! ## Reading the tokens as they stand -/

/-- The commands for escaped characters have no other meaning. -/
theorem escapes_plain {c : Char} (hc : c ∈ escapedChars) :
    String.ofList ['\\', c] ≠ "\\degree" ∧
    accentOfCommand? (String.ofList ['\\', c]) = none ∧
    isTypeface (String.ofList ['\\', c]) = false ∧
    symbolOfCommand? (String.ofList ['\\', c]) = none ∧
    unescape? (String.ofList ['\\', c]) = some c := by
  simp only [escapedChars, List.mem_cons, List.not_mem_nil, or_false] at hc
  rcases hc with rfl | rfl | rfl | rfl | rfl | rfl | rfl | rfl <;> decide +kernel

/-- The token of a caret. -/
def caret : Token := ⟨"^", .char⟩

namespace Piece

variable {t : Token} (h : Piece t)
include h

/-- A piece is no brace. -/
theorem kind : t.kind ≠ .openGroup ∧ t.kind ≠ .closeGroup := by
  cases h <;> exact ⟨TokenKind.noConfusion, TokenKind.noConfusion⟩

/-- A piece is closed, and a comma counts within braces only. -/
theorem whole : Whole 1 [t] :=
  whole_token h.kind.1 h.kind.2 fun _ => Nat.zero_lt_one

/-- A piece extends a base, unless it is a caret. -/
theorem body? (hcaret : t ≠ caret) (P : Parts) (us : List Token) :
    Name.body? P (t :: us) =
      (P.pushBase? (String.ofList (spelled t))).bind fun q => Name.body? q us := by
  -- an escape is none of the commands that have a meaning in a name
  cases h with
  | @escape c hc =>
    obtain ⟨hdegree, haccent, hface, hsymbol, hescape⟩ := escapes_plain hc
    rw [spelled_escape, Name.body?]
    show (if String.ofList ['\\', c] = "\\degree" then _ else _) = _
    rw [if_neg hdegree]
    simp only [haccent, hface, hsymbol, hescape]
    rfl
  | @char c hc =>
    have hunder : String.ofList [c] ≠ "_" := by
      intro he
      rw [show "_" = String.ofList ['_'] from rfl] at he
      rw [(List.cons.inj (String.ofList_injective he)).1] at hc
      exact hc (by decide)
    have hmark : String.ofList [c] ≠ "^" := fun he => hcaret (congrArg (Token.mk · .char) he)
    rw [spelled_char, Name.body?]
    show (if String.ofList [c] = "_" then _ else if String.ofList [c] = "^" then _ else _) = _
    rw [if_neg hunder, if_neg hmark]
    rfl
  | number hds =>
    rw [spelled_number, Name.body?]
    rfl

/-- Only a caret stands for one. -/
theorem not_mem_caret (hcaret : t ≠ caret) : '^' ∉ spelled t := by
  cases h with
  | @escape c hc =>
    rw [spelled_escape, List.mem_singleton]
    rintro rfl
    exact absurd hc (by decide)
  | @char c hc =>
    rw [spelled_char, List.mem_singleton]
    rintro rfl
    exact hcaret rfl
  | number hds =>
    rw [spelled_number]
    exact fun hm => absurd (hds _ hm) (by decide)

/-- Only the escape of an underscore stands for one. -/
theorem spelled_of_underscore (hm : '_' ∈ spelled t) : spelled t = ['_'] := by
  cases h with
  | @escape c hc =>
    rw [spelled_escape, List.mem_singleton] at hm
    rw [spelled_escape, hm]
  | @char c hc =>
    rw [spelled_char, List.mem_singleton] at hm
    rw [← hm] at hc
    exact absurd hc (by decide)
  | number hds =>
    rw [spelled_number] at hm
    exact absurd (hds _ hm) (by decide)

end Piece

section Pieces

variable {ts : List Token} (h : ∀ t ∈ ts, Piece t)
include h

/-- Pieces in a row are closed. -/
theorem whole_pieces : Whole 1 ts := by
  induction ts with
  | nil => exact whole_nil 1
  | cons t ts ih =>
    obtain ⟨ht, hts⟩ := List.forall_mem_cons.1 h
    exact ht.whole.append (ih hts)

/-- Each piece is a unit. -/
theorem countUnits_pieces : Token.countUnits ts = ts.length := by
  suffices hcount : ∀ absorbing, Token.countUnitsFrom 0 absorbing ts = ts.length from hcount false
  induction ts with
  | nil => exact fun _ => rfl
  | cons t ts ih =>
    intro absorbing
    obtain ⟨ht, hts⟩ := List.forall_mem_cons.1 h
    have hrest := ih hts t.absorbsGroups
    rw [List.length_cons, ← hrest, Nat.add_comm]
    cases ht <;> rfl

/-- Pieces are read as they stand. -/
theorem verbatim?_pieces : verbatim? ts = some { base := String.ofList (ts.flatMap spelled) } := by
  -- each token says what it spells, and the texts are joined
  have hjoin : ts.mapM (fun t => if t.kind = .command then
      (unescape? t.raw).map fun c => String.ofList [c] else some t.raw) =
      some (ts.map fun t => String.ofList (spelled t)) := by
    refine mapM_eq_some_iff.2 ?_
    rw [List.map_map]
    refine List.map_congr_left fun t ht => ?_
    rw [Function.comp_apply]
    cases h t ht with
    | @escape c hc =>
      rw [if_pos rfl, (escapes_plain hc).2.2.2.2, spelled_escape]
      rfl
    | char hc => rw [if_neg TokenKind.noConfusion, spelled_char]
    | number hds => rw [if_neg TokenKind.noConfusion, spelled_number]
  have htext : ∀ us : List Token, String.join (us.map fun t => String.ofList (spelled t)) =
      String.ofList (us.flatMap spelled) := by
    intro us
    induction us with
    | nil => rfl
    | cons u us ih =>
      rw [List.map_cons, String.join_cons, ih, List.flatMap_cons, String.ofList_append]
  rw [verbatim?, hjoin, Option.map_some, htext]

/-- Pieces without carets extend a base. -/
theorem body?_pieces (hcaret : caret ∉ ts) (base : String) (us : List Token) :
    body? { base } (ts ++ us) =
      body? { base := base ++ String.ofList (ts.flatMap spelled) } us := by
  induction ts generalizing base with
  | nil => rw [List.nil_append, List.flatMap_nil, String.ofList_nil, String.append_empty]
  | cons t ts ih =>
    obtain ⟨ht, hts⟩ := List.forall_mem_cons.1 h
    rw [List.mem_cons, not_or] at hcaret
    rw [List.cons_append, ht.body? fun he => hcaret.1 he.symm, List.flatMap_cons,
      String.ofList_append, ← String.append_assoc, ← ih hts hcaret.2]
    rfl

end Pieces

/-! ## Superscripts -/

/-- Carets and one token behind each of them that is none. -/
def isSuperscripts : List Token → Bool
  | [] => true
  | [_] => false
  | m :: t :: ts => m == caret && t != caret && isSuperscripts ts

/-- All there is from the first caret on are superscripts of one token each. -/
def Superscripted (ts : List Token) : Prop :=
  caret ∈ ts ∧ isSuperscripts (ts.dropWhile (· != caret)) = true

instance (ts : List Token) : Decidable (Superscripted ts) :=
  inferInstanceAs (Decidable (_ ∧ _))

/-- What has a superscript has more than one piece. -/
theorem Superscripted.one_lt_length {ts : List Token} (h : Superscripted ts) : 1 < ts.length := by
  obtain ⟨hcaret, hall⟩ := h
  have hlen := (List.dropWhile_sublist (p := (· != caret)) (l := ts)).length_le
  cases hs : ts.dropWhile (· != caret) with
  | nil =>
    have hne := List.dropWhile_eq_nil_iff.1 hs caret hcaret
    rw [bne_self_eq_false] at hne
    exact absurd hne Bool.false_ne_true
  | cons m scripts =>
    rw [hs] at hall hlen
    cases scripts with
    | nil => exact absurd hall Bool.false_ne_true
    | cons t scripts =>
      rw [List.length_cons, List.length_cons] at hlen
      omega

/-- A base without marks is named by itself. -/
theorem name_base (base : String) : Parts.name { base } = base := by
  show base ++ "" ++ "" ++ "" = base
  rw [String.append_empty, String.append_empty, String.append_empty]

/-- A caret takes a piece that is none as a superscript. Only a comma makes two of them. -/
theorem Piece.names? {t : Token} (h : Piece t) (hcaret : t ≠ caret) :
    ∃ names, Name.names? [t] = some names ∧ names ≠ [] ∧ ∀ name ∈ names, '^' ∉ name.toList := by
  -- a comma alone stands between two empty names
  by_cases hcomma : t = comma
  · refine ⟨["", ""], ?_, List.cons_ne_nil _ _, fun name hn => ?_⟩
    · rw [hcomma, Name.names?, show splitCommas 0 [comma] = [[], []] from rfl, List.mapM_cons,
        List.mapM_cons, body?_nil]
      rfl
    · have hempty : name = "" := by simpa using hn
      rw [hempty]
      exact List.not_mem_nil
  · have hsplit : splitCommas 0 [t] = [[t]] := by
      rw [splitCommas, if_neg]
      · cases h <;> rfl
      · rintro ⟨hkind, -, hraw⟩
        exact hcomma (congrArg₂ Token.mk hraw hkind)
    have hbody : Name.body? {} [t] = some { base := String.ofList (spelled t) } := by
      rw [h.body? hcaret]
      show Name.body? { base := "" ++ String.ofList (spelled t) } [] = _
      rw [String.empty_append, body?_nil]
    refine ⟨[String.ofList (spelled t)], ?_, List.cons_ne_nil _ _, fun name hn => ?_⟩
    · rw [Name.names?, hsplit, List.mapM_cons, hbody, Option.map_some, name_base]
      rfl
    · rw [List.mem_singleton.1 hn, String.toList_ofList]
      exact h.not_mem_caret hcaret

/-- A piece is an argument by itself. -/
theorem argument?_piece {t : Token} (h : Piece t) (ts : List Token) :
    argument? (t :: ts) = some ([t], ts) := by
  cases h <;> rfl

/-- A piece is no prime. -/
theorem primeName?_piece {t : Token} (h : Piece t) : primeName? [t] = none := by
  have hraw : ∀ w ∈ ["\\prime", "\\doubleprime"], t.raw ≠ w := by
    intro w hw he
    have hlong : w.toList.head? = some '\\' ∧ 2 < w.toList.length := by
      simp only [List.mem_cons, List.not_mem_nil, or_false] at hw
      rcases hw with rfl | rfl <;> decide
    rw [← he] at hlong
    cases h with
    | escape hc =>
      rw [String.toList_ofList] at hlong
      exact absurd hlong.2 (by simp)
    | char hc =>
      rw [String.toList_ofList] at hlong
      exact absurd hlong.2 (by simp)
    | @number ds hds =>
      rw [String.toList_ofList] at hlong
      exact absurd (hds _ (List.mem_of_head? hlong.1)) (by decide)
  rw [primeName?, if_neg (hraw _ List.mem_cons_self),
    if_neg (hraw _ (List.mem_cons_of_mem _ List.mem_cons_self))]

/-- Behind a script nothing but scripts can be read. -/
theorem body?_of_not_plain {P : Parts} (hP : P.isPlain = false) {t : Token} (h : Piece t)
    (hcaret : t ≠ caret) (us : List Token) : body? P (t :: us) = none := by
  rw [h.body? hcaret, Parts.pushBase?, hP]
  rfl

/-- A caret puts the piece behind it above. -/
theorem body?_caret {t : Token} (h : Piece t) (P : Parts) (us : List Token) :
    body? P (caret :: t :: us) =
      (names? [t]).bind fun names => body? { P with above := P.above ++ names } us := by
  have hread := body?_superscript (argument?_piece h us) P
  rw [primeName?_piece h] at hread
  exact hread

/-- A caret behind a caret is no name. -/
theorem body?_caret_caret (P : Parts) (us : List Token) : body? P (caret :: caret :: us) = none := by
  have hno : names? [caret] = none := by
    rw [names?, show splitCommas 0 [caret] = [[caret]] from rfl, List.mapM_cons, body?]
    rfl
  have hpiece : Piece caret := .char (c := '^') (by decide)
  rw [body?_caret hpiece, hno]
  rfl

/-- Superscripts are read behind the base, and none of them has a caret in it. -/
theorem body?_of_isSuperscripts {scripts : List Token} (h : ∀ t ∈ scripts, Piece t)
    (hs : isSuperscripts scripts = true) (P : Parts) :
    ∃ names, body? P scripts = some { P with above := P.above ++ names } ∧
      ∀ name ∈ names, '^' ∉ name.toList := by
  fun_induction isSuperscripts scripts generalizing P with
  | case1 =>
    refine ⟨[], ?_, nofun⟩
    rw [body?_nil, List.append_nil]
  | case2 => exact absurd hs Bool.false_ne_true
  | case3 m t ts ih =>
    simp only [Bool.and_eq_true, beq_iff_eq, bne_iff_ne] at hs
    obtain ⟨⟨rfl, ht⟩, hts⟩ := hs
    obtain ⟨-, hpiece, hpieces⟩ := by simpa only [List.forall_mem_cons] using h
    obtain ⟨names, hnames, -, hfirst⟩ := hpiece.names? ht
    obtain ⟨others, hothers, hrest⟩ := ih hpieces hts { P with above := P.above ++ names }
    refine ⟨names ++ others, ?_, List.forall_mem_append.2 ⟨hfirst, hrest⟩⟩
    rw [body?_caret hpiece, hnames, Option.bind_some, hothers, List.append_assoc]

/-- If there is anything else from the first caret on, it cannot be read. -/
theorem body?_of_not_isSuperscripts {scripts : List Token} (h : ∀ t ∈ scripts, Piece t)
    (hs : isSuperscripts scripts = false) {P : Parts}
    (hP : P.isPlain = false ∨ scripts.head? = some caret) : body? P scripts = none := by
  -- two tokens at a time, a caret and its superscript; once one is read, the parts are no longer
  -- plain
  fun_induction isSuperscripts scripts generalizing P with
  | case1 => exact absurd hs.symm Bool.false_ne_true
  | case2 m =>
    by_cases hm : m = caret
    · rw [hm, body?]
      rfl
    · have hplain := hP.resolve_right fun he => hm (Option.some.inj he)
      exact body?_of_not_plain hplain (h m List.mem_cons_self) hm []
  | case3 m t ts ih =>
    obtain ⟨hfirst, hpiece, hpieces⟩ := by simpa only [List.forall_mem_cons] using h
    by_cases hm : m = caret
    · by_cases ht : t = caret
      · rw [hm, ht]
        exact body?_caret_caret P ts
      · obtain ⟨names, hnames, hne, -⟩ := hpiece.names? ht
        have hts : isSuperscripts ts = false := by
          rw [hm, beq_self_eq_true, Bool.true_and, bne_iff_ne.2 ht, Bool.true_and] at hs
          exact hs
        have hmore : Parts.isPlain { P with above := P.above ++ names } = false := by
          unfold Parts.isPlain
          simp [hne]
        rw [hm, body?_caret hpiece, hnames, Option.bind_some]
        exact ih hpieces hts (Or.inl hmore)
    · have hplain := hP.resolve_right fun he => hm (Option.some.inj he)
      exact body?_of_not_plain hplain hfirst hm (t :: ts)

/-! ## What is read of an upright name -/

/-- Tokens that cannot be read as a body are taken as they stand. -/
theorem contents?_pieces {ts : List Token} (h : ∀ t ∈ ts, Piece t) (body : Option Parts) :
    contents? "\\mathrm" ts body =
      body.or (some { base := String.ofList (ts.flatMap spelled) }) := by
  rw [← verbatim?_pieces h]
  rfl

/-- The tokens up to the first caret, and the others. -/
theorem exists_front (ts : List Token) :
    ∃ front, ts = front ++ ts.dropWhile (· != caret) ∧ caret ∉ front ∧
      ∀ t ∈ (ts.dropWhile (· != caret)).head?, t = caret := by
  refine ⟨ts.takeWhile (· != caret), List.takeWhile_append_dropWhile.symm, fun hm => ?_,
    fun t ht => ?_⟩
  · have hne := List.all_eq_true.1 List.all_takeWhile caret hm
    rw [bne_self_eq_false] at hne
    exact Bool.false_ne_true hne
  · have hnot := List.head?_dropWhile_not (· != caret) ts
    rw [Option.mem_def.1 ht] at hnot
    simpa using hnot

/-- No caret gets into a name from a base and superscripts without any. -/
theorem not_mem_caret_above {base : List Char} (hbase : '^' ∉ base) {names : List String}
    (hnames : ∀ name ∈ names, '^' ∉ name.toList) :
    '^' ∉ (Parts.name { base := String.ofList base, above := names }).toList := by
  rw [Parts.toList_name, String.toList_ofList]
  simp only [wordsBehind, List.flatMap_nil, List.append_nil, List.mem_append,
    not_or]
  refine ⟨hbase, fun hm => ?_⟩
  obtain ⟨name, hname, hin⟩ := List.mem_flatMap.1 hm
  simp only [List.mem_cons, Char.reduceEq, false_or] at hin
  exact hnames name hname hin

/-- What the contents of an upright command say: the text of the tokens, or what is left of it
without its carets. -/
theorem exists_contents? {ts : List Token} (h : ∀ t ∈ ts, Piece t) :
    ∃ P, contents? "\\mathrm" ts (body? {} ts) = some P ∧
      (Superscripted ts → '^' ∉ P.name.toList) ∧
      (¬ Superscripted ts → P = { base := String.ofList (ts.flatMap spelled) }) := by
  obtain ⟨front, hsplit, hfront, hhead⟩ := exists_front ts
  unfold Superscripted
  generalize ts.dropWhile (· != caret) = scripts at hsplit hhead ⊢
  obtain ⟨hfronts, hscripts⟩ : (∀ t ∈ front, Piece t) ∧ ∀ t ∈ scripts, Piece t := by
    rwa [← List.forall_mem_append, ← hsplit]
  have hbody := body?_pieces hfronts hfront "" scripts
  rw [← hsplit, String.empty_append] at hbody
  rw [contents?_pieces h]
  -- the front is the base, so it is what is behind it that can be read or cannot
  cases scripts with
  | nil =>
    rw [List.append_nil] at hsplit
    rw [hbody, body?_nil, ← hsplit]
    exact ⟨_, rfl, fun hm => absurd (hsplit ▸ hm.1) hfront, fun _ => rfl⟩
  | cons m rest =>
    have hm : m = caret := hhead m rfl
    have hcaret : caret ∈ ts := by
      rw [hsplit, hm]
      exact List.mem_append_right front List.mem_cons_self
    cases hall : isSuperscripts (m :: rest) with
    | false =>
      rw [hbody, body?_of_not_isSuperscripts hscripts hall (Or.inr (congrArg some hm))]
      exact ⟨_, rfl, fun hm => absurd hm.2 Bool.false_ne_true, fun _ => rfl⟩
    | true =>
      obtain ⟨names, hread, hnames⟩ := body?_of_isSuperscripts hscripts hall
        { base := String.ofList (front.flatMap spelled) }
      rw [hbody, hread]
      refine ⟨_, rfl, fun _ => not_mem_caret_above (fun hm => ?_) hnames,
        fun hno => absurd ⟨hcaret, rfl⟩ hno⟩
      obtain ⟨t, ht, hspelled⟩ := List.mem_flatMap.1 hm
      exact (hfronts t ht).not_mem_caret (fun he => hfront (he ▸ ht)) hspelled

/-- The name of some parts that are marked as upright. -/
theorem underscore_mem_of_upright (P : Parts) :
    '_' ∈ (Parts.name { P with typefaces := P.typefaces ++ ["upright"] }).toList := by
  rw [Parts.toList_name]
  simp [wordsBehind]

/-- The contents of an upright command are what is read of it, if there is more than one token or an
underscore at the start. Otherwise they are marked as upright. -/
theorem exists_styled? {ts : List Token} (h : ∀ t ∈ ts, Piece t) {P : Parts}
    (hP : contents? "\\mathrm" ts (body? {} ts) = some P) :
    ∃ Q, styled? "\\mathrm" ts (body? {} ts) = some Q ∧
      (1 < ts.length ∨ P.base.toList.head? = some '_' → Q = P) ∧
      (¬ (1 < ts.length ∨ P.base.toList.head? = some '_') → '_' ∈ Q.name.toList) := by
  obtain ⟨face, hface, hname⟩ : ∃ face, typefaceOfCommand? "\\mathrm" = some face ∧
      face.name = "upright" :=
    ⟨_, rfl, rfl⟩
  rw [styled?_eq, hP, Option.bind_some, hface]
  dsimp only
  rw [hname, beq_self_eq_true, Bool.true_and, countUnits_pieces h]
  by_cases hmany : 1 < ts.length ∨ P.base.toList.head? = some '_'
  · rw [if_pos (by simpa using hmany)]
    exact ⟨P, rfl, fun _ => rfl, fun hno => absurd hmany hno⟩
  · rw [if_neg (by simpa using hmany)]
    exact ⟨_, rfl, fun hyes => absurd hyes hmany, fun _ => underscore_mem_of_upright _⟩

/-- An escaped name in an upright typeface scans to its pieces between braces. -/
theorem scan_escaped {cs : List Char} {ts : List Token} (h : Cuts cs ts) :
    Token.scan (escaped cs) = ⟨"\\mathrm", .command⟩ :: (leftBrace :: ts ++ [rightBrace]) := by
  obtain ⟨hw, -⟩ := controlWord_of_isSign (w := "\\mathrm") (by decide)
  have hchars : (escaped cs).toList =
      "\\mathrm".toList ++ ('\x7b' :: (escapeChars cs ++ ['\x7d'])) := by
    rw [escaped, braced, String.toList_append, String.toList_append, String.toList_append,
      toList_escape]
    rfl
  have hstop : Stops ['\x7d'] := fun c hc => by
    rw [← Option.some.inj hc]
    decide
  rw [Token.scan, hchars, scanFrom_controlWord hw fun c hc => by rw [← Option.some.inj hc]; decide,
    scanFrom_lone (c := '\x7b') (by decide), h.scan _ hstop, scanFrom_lone (c := '\x7d') (by decide),
    scanFrom_nil]
  rfl

/-- The name that is read off an escaped one. -/
theorem decode_escaped {cs : List Char} {ts : List Token} (h : Cuts cs ts) {Q : Parts}
    (hQ : styled? "\\mathrm" ts (body? {} ts) = some Q) : decode (escaped cs) = some Q.name := by
  have hgroup : group? (leftBrace :: ts ++ [rightBrace]) = some (ts, []) :=
    (whole_pieces h.pieces).splitClose? []
  have hread := readIdentifier?_typeface (w := "\\mathrm") (by decide) (by decide) (by decide)
    hgroup hQ
  unfold decode
  dsimp only
  rw [scan_escaped h, hread]

/-- An escaped name scans to its pieces. -/
theorem Cuts.scan_escape {cs : List Char} {ts : List Token} (h : Cuts cs ts) :
    Token.scan (Name.escape cs) = ts := by
  have hs := h.scan [] nofun
  rw [List.append_nil, scanFrom_nil, List.append_nil] at hs
  rw [Token.scan, toList_escape, hs]

/-- A single token with an underscore in it is the escape of one. -/
theorem Cuts.head?_of_sole {cs : List Char} {ts : List Token} (h : Cuts cs ts)
    (hsole : ts.length ≤ 1) (hm : '_' ∈ cs) : (cs.filter stays).head? = some '_' := by
  have hin : '_' ∈ ts.flatMap spelled := by
    rw [h.text, List.mem_filter]
    exact ⟨hm, rfl⟩
  obtain ⟨t, ht, hspelled⟩ := List.mem_flatMap.1 hin
  obtain ⟨u, rfl⟩ := List.length_eq_one_iff.1 (Nat.le_antisymm hsole (List.length_pos_of_mem ht))
  obtain rfl := List.mem_singleton.1 ht
  rw [← h.text, List.flatMap_singleton, (h.pieces t ht).spelled_of_underscore hspelled]
  rfl

/-- An escaped name is read as the name just if it has no backslash and no blanks other than spaces,
has more than one token or an underscore at the start, and does not go on with superscripts only
from its first caret on. -/
theorem decode_escaped_iff (name : String) : decode (escaped name.toList) = some name ↔
    '\\' ∉ name.toList ∧ (∀ c ∈ name.toList, isBlank c = true → c = ' ') ∧
      (1 < (Token.scan (escape name.toList)).length ∨ name.toList.head? = some '_') ∧
      ¬ Superscripted (Token.scan (escape name.toList)) := by
  by_cases hslash : '\\' ∈ name.toList
  · exact iff_of_false (fun h => slashless_of_decode h hslash) fun h => h.1 hslash
  obtain ⟨ts, hts⟩ := exists_cuts name.toList hslash
  obtain ⟨P, hP, hscripts, hverbatim⟩ := exists_contents? hts.pieces
  obtain ⟨Q, hQ, hmany, hmarked⟩ := exists_styled? hts.pieces hP
  rw [decode_escaped hts hQ, Option.some.injEq, hts.scan_escape]
  have hstays : (∀ c ∈ name.toList, isBlank c = true → c = ' ') ↔
      name.toList.filter stays = name.toList := by
    rw [List.filter_eq_self]
    exact forall_congr' fun c => forall_congr' fun _ => stays_iff.symm
  by_cases hsuper : Superscripted ts
  · -- there is a caret in the name, but none in what is read
    refine iff_of_false (fun hname => ?_) fun h => h.2.2.2 hsuper
    have hcaret : '^' ∈ ts.flatMap spelled :=
      List.mem_flatMap.2 ⟨caret, hsuper.1, List.mem_singleton.2 rfl⟩
    rw [hts.text] at hcaret
    refine hscripts hsuper ?_
    rw [← hmany (Or.inl hsuper.one_lt_length), hname]
    exact (List.mem_filter.1 hcaret).1
  · have hbase := hverbatim hsuper
    rw [hts.text] at hbase
    have htext : P.base.toList = name.toList.filter stays := by
      rw [hbase, String.toList_ofList]
    by_cases hunits : 1 < ts.length ∨ P.base.toList.head? = some '_'
    · have hname : Q.name = String.ofList (name.toList.filter stays) := by
        rw [hmany hunits, hbase, name_base]
      rw [hname, ← String.toList_inj, String.toList_ofList, ← hstays]
      refine ⟨fun h => ⟨hslash, h, ?_, hsuper⟩, fun h => h.2.1⟩
      rw [← hstays.1 h, ← htext]
      exact hunits
    · -- what is read has an underscore in it, but the name has none
      refine iff_of_false (fun hname => hunits (Or.inr ?_)) fun h => hunits ?_
      · have hsole : ts.length ≤ 1 := Nat.not_lt.1 fun h => hunits (Or.inl h)
        rw [htext]
        exact hts.head?_of_sole hsole (hname ▸ hmarked hunits)
      · rw [htext, hstays.1 h.2.1]
        exact h.2.2.1

/-- The same for the rendering of a name that is written as it stands. -/
theorem decode_encode_escaped_iff {name : String} (h : encode name .auto = escaped name.toList) :
    decode (encode name .auto) = some name ↔
      '\\' ∉ name.toList ∧ (∀ c ∈ name.toList, isBlank c = true → c = ' ') ∧
        (1 < (Token.scan (escape name.toList)).length ∨ name.toList.head? = some '_') ∧
        ¬ Superscripted (Token.scan (escape name.toList)) := by
  rw [h]
  exact decode_escaped_iff name

/-- A caret does no harm if something else comes behind its superscript, but here it does. -/
theorem decode_encode_carets :
    encode "\x7ba^2 b\x7d" .auto = escaped "\x7ba^2 b\x7d".toList ∧
      decode (encode "\x7ba^2 b\x7d" .auto) = some "\x7ba^2 b\x7d" ∧
      encode "a^b" .auto = escaped "a^b".toList ∧
      decode (encode "a^b" .auto) ≠ some "a^b" := by
  have h : encode "\x7ba^2 b\x7d" .auto = escaped "\x7ba^2 b\x7d".toList := by
    decide +kernel
  have h' : encode "a^b" .auto = escaped "a^b".toList := by
    decide +kernel
  refine ⟨h, (decode_encode_escaped_iff h).2 ⟨by decide +kernel, ?_, by decide +kernel,
    by decide +kernel⟩, h', fun hback => ?_⟩
  · have hall : "\x7ba^2 b\x7d".toList.all stays = true := by decide +kernel
    exact fun c hc => stays_iff.1 (List.all_eq_true.1 hall c hc)
  · have hno := ((decode_encode_escaped_iff h').1 hback).2.2.2
    exact hno (by decide +kernel)

/-- So not every name that is written as it stands is read back: `^` is not escaped. -/
theorem exists_decode_encode_ne : ¬ ∀ name : String, name ≠ "" →
    encode name .auto = escaped name.toList → decode (encode name .auto) = some name := by
  intro h
  have hback := h "a^b" (by decide) (by decide +kernel)
  exact absurd hback (by decide +kernel)

end Name
end MathMarkup
