import MathMarkup.Lexicon.Entry
import MathMarkup.Parser.Buffer
import MathMarkup.Token.Lexer

/-!
# What markup is cut into

`Lexer.Scans s ts` says that the lexer cuts the markup `s` into the tokens `ts` wherever it stands,
and that the parser keeps all of them. The markup after it must not go on with a letter, a digit or
a point (`Lexer.Stops`), since that might belong to the last token of `s`.

Markup is put together from pieces. Characters that are tokens of their own can stand anywhere,
and `append` puts a space where a control word would take in the letter after it.
-/

namespace MathMarkup
namespace Lexer

open MathMarkup.Parser

/-! ## One token -/

/-- The token that comes first is the first token of the scan. -/
theorem scanFrom_of_next {mode mode' : Mode} {cs rest : List Char} {t : Token}
    (h : next? mode cs = some (t, mode', rest)) :
    scanFrom mode cs = t :: scanFrom mode' rest := by
  rw [scanFrom]
  split
  next hn =>
    rw [hn] at h
    exact absurd h (by simp)
  next hn =>
    rw [hn] at h
    obtain ⟨rfl, rfl, rfl⟩ : _ = t ∧ _ = mode' ∧ _ = rest := by simpa using h
    rfl

/-- Where no token comes, the scan is over. -/
theorem scanFrom_of_none {mode : Mode} {cs : List Char} (h : next? mode cs = none) :
    scanFrom mode cs = [] := by
  rw [scanFrom]
  split
  next => rfl
  next hn =>
    rw [hn] at h
    cases h

theorem scanFrom_nil : scanFrom .math [] = [] :=
  scanFrom_of_none rfl

/-- Markup whose first tokens are the same scans the same. -/
theorem scanFrom_of_mathToken?_eq {cs ds : List Char}
    (h : mathToken? .math cs = mathToken? .math ds) :
    scanFrom .math cs = scanFrom .math ds := by
  have hnext : next? .math cs = next? .math ds := h
  cases hd : next? .math ds with
  | none => rw [scanFrom_of_none hd, scanFrom_of_none (hnext.trans hd)]
  | some found =>
    obtain ⟨t, mode, rest⟩ := found
    rw [scanFrom_of_next hd, scanFrom_of_next (hnext.trans hd)]

/-- A blank is dropped. -/
theorem scanFrom_blank {c : Char} (hb : isBlank c = true) (cs : List Char) :
    scanFrom .math (c :: cs) = scanFrom .math cs := by
  refine scanFrom_of_mathToken?_eq ?_
  have hskip : skipIgnored false (c :: cs) = skipIgnored false cs := by
    rw [skipIgnored, if_neg Bool.false_ne_true, if_pos hb]
  rw [mathToken?, hskip]
  rfl

/-- A space in front of markup is skipped. -/
theorem scanFrom_space (cs : List Char) : scanFrom .math (' ' :: cs) = scanFrom .math cs :=
  scanFrom_blank rfl cs

/-- A character that is neither blank nor the start of a comment is not skipped. -/
theorem skipIgnored_cons {c : Char} (hb : isBlank c = false) (hc : c ≠ '%') (cs : List Char) :
    skipIgnored false (c :: cs) = c :: cs := by
  unfold skipIgnored
  rw [if_neg Bool.false_ne_true, hb, if_neg Bool.false_ne_true,
    if_neg (by rw [beq_iff_eq]; exact hc)]

/-- The visible characters of ASCII are no blanks. -/
theorem isBlank_of_visible {c : Char} (h : 33 ≤ c.toNat) (h' : c.toNat ≤ 126) :
    isBlank c = false := by
  unfold isBlank
  dsimp only
  simp only [Bool.or_eq_false_iff, Bool.and_eq_false_iff, decide_eq_false_iff_not,
    beq_eq_false_iff_ne]
  omega

/-- A character that begins no command, no number and no comment, and is no blank. -/
structure Lone (c : Char) : Prop where
  blank : isBlank c = false
  comment : c ≠ '%'
  command : c ≠ '\\'
  digit : c.isDigit = false
  point : c ≠ '.'

instance (c : Char) : Decidable (Lone c) :=
  decidable_of_iff
    (isBlank c = false ∧ c ≠ '%' ∧ c ≠ '\\' ∧ c.isDigit = false ∧ c ≠ '.')
    ⟨fun h => ⟨h.1, h.2.1, h.2.2.1, h.2.2.2.1, h.2.2.2.2⟩,
      fun h => ⟨h.blank, h.comment, h.command, h.digit, h.point⟩⟩

/-- The kind of the token that a lone character makes. -/
def loneKind (c : Char) : TokenKind :=
  if c == '{' then .openGroup else if c == '}' then .closeGroup else .char

/-- The token that a lone character makes. -/
def loneToken (c : Char) : Token :=
  ⟨String.ofList [c], loneKind c⟩

/-- A lone character begins no number. -/
theorem splitNumber?_of_lone {c : Char} (hc : Lone c) (cs : List Char) :
    splitNumber? (c :: cs) = none := by
  have hf : fractionDigits (c :: cs) = [] := by
    unfold fractionDigits
    split
    next heq =>
      exact absurd (List.cons.inj heq).1 hc.point
    next => rfl
  unfold splitNumber?
  rw [List.takeWhile_cons_of_neg (by rw [hc.digit]; decide),
    List.dropWhile_cons_of_neg (by rw [hc.digit]; decide)]
  dsimp only
  rw [hf]
  rfl

/-- What is no command begins a number, or it is a token of its own. -/
theorem mathToken?_of_ne_slash {cs after : List Char} {c : Char}
    (h : skipIgnored false cs = c :: after) (hc : c ≠ '\\') (mode : Mode) :
    mathToken? mode cs = match splitNumber? (c :: after) with
      | some (digits, rest) => some (⟨String.ofList digits, .number⟩, .math, rest)
      | none =>
        if c == '{' then
          some (⟨String.ofList [c], .openGroup⟩,
            if mode = .textCommand then .textOpen else .math, after)
        else if c == '}' then some (⟨String.ofList [c], .closeGroup⟩, .math, after)
        else some (⟨String.ofList [c], .char⟩, .math, after) := by
  unfold mathToken?
  rw [h]
  split
  next heq => cases heq
  next heq => exact absurd (List.cons.inj heq).1 hc
  next heq =>
    obtain ⟨rfl, rfl⟩ := List.cons.inj heq
    rfl

/-- A lone character is a token, whatever comes after it. -/
theorem scanFrom_lone {c : Char} (hc : Lone c) (cs : List Char) :
    scanFrom .math (c :: cs) = loneToken c :: scanFrom .math cs := by
  refine scanFrom_of_next ?_
  show mathToken? .math (c :: cs) = _
  rw [mathToken?_of_ne_slash (skipIgnored_cons hc.blank hc.comment cs) hc.command,
    splitNumber?_of_lone hc]
  unfold loneToken loneKind
  -- a brace has a kind of its own; any other character is what it is
  by_cases ho : c == '{'
  · rw [if_pos ho, if_pos ho]
    rfl
  · rw [if_neg ho, if_neg ho]
    by_cases hg : c == '}'
    · rw [if_pos hg, if_pos hg]
    · rw [if_neg hg, if_neg hg]

/-- A command whose name is ASCII letters. -/
structure ControlWord (w : String) : Prop where
  letters : ∃ cs, cs ≠ [] ∧ (∀ c ∈ cs, c.isAlpha = true) ∧ w.toList = '\\' :: cs
  text : w ∉ Token.textCommands

/-- A run of characters with a property ends where a character without it comes. -/
theorem takeWhile_append_of_head {p : Char → Bool} {cs rest : List Char}
    (hcs : ∀ c ∈ cs, p c = true) (hr : ∀ c ∈ rest.head?, p c = false) :
    (cs ++ rest).takeWhile p = cs ∧ (cs ++ rest).dropWhile p = rest := by
  rw [List.takeWhile_append_of_pos hcs, List.dropWhile_append_of_pos hcs]
  cases rest with
  | nil => exact ⟨List.append_nil cs, rfl⟩
  | cons c rest =>
    have hc := hr c rfl
    rw [List.takeWhile_cons_of_neg (by rw [hc]; decide),
      List.dropWhile_cons_of_neg (by rw [hc]; decide)]
    exact ⟨List.append_nil cs, rfl⟩

/-- A control word ends where its letters end. -/
theorem scanFrom_controlWord {w : String} (hw : ControlWord w) {rest : List Char}
    (hr : ∀ c ∈ rest.head?, c.isAlpha = false) :
    scanFrom .math (w.toList ++ rest) = ⟨w, .command⟩ :: scanFrom .math rest := by
  obtain ⟨cs, hne, hcs, hl⟩ := hw.letters
  obtain ⟨ht, hd⟩ := takeWhile_append_of_head hcs hr
  have hraw : String.ofList ('\\' :: cs) = w := by rw [← hl, String.ofList_toList]
  have hsplit : splitCommand (cs ++ rest) = (cs, rest) := by
    unfold splitCommand
    rw [ht, hd]
    split
    · exact absurd rfl hne
    · rfl
  rw [hl]
  refine scanFrom_of_next ?_
  show mathToken? .math ('\\' :: (cs ++ rest)) = _
  show some (Token.mk (String.ofList ('\\' :: (splitCommand (cs ++ rest)).1)) .command,
    Mode.afterCommand (String.ofList ('\\' :: (splitCommand (cs ++ rest)).1)),
    (splitCommand (cs ++ rest)).2) = _
  rw [hsplit, hraw, Mode.afterCommand, if_neg]
  rw [List.contains_iff_mem]
  exact hw.text

/-- The codes of the digits. -/
theorem toNat_of_isDigit {c : Char} (h : c.isDigit = true) : 48 ≤ c.toNat ∧ c.toNat ≤ 57 := by
  unfold Char.isDigit at h
  rw [Bool.and_eq_true, decide_eq_true_iff, decide_eq_true_iff] at h
  exact h

/-- Without a point there are no digits behind it. -/
theorem fractionDigits_of_ne_point {cs : List Char} (h : ∀ c ∈ cs.head?, c ≠ '.') :
    fractionDigits cs = [] := by
  unfold fractionDigits
  split
  · exact absurd rfl (h _ rfl)
  · rfl

/-- Digits that nothing goes on with are a number of their own. -/
theorem splitNumber?_digits {ds rest : List Char} (hne : ds ≠ [])
    (hds : ∀ c ∈ ds, c.isDigit = true) (hr : ∀ c ∈ rest.head?, c.isDigit = false)
    (hf : fractionDigits rest = []) : splitNumber? (ds ++ rest) = some (ds, rest) := by
  obtain ⟨ht, hd⟩ := takeWhile_append_of_head hds hr
  unfold splitNumber?
  rw [ht, hd]
  dsimp only
  rw [hf]
  dsimp only
  rw [if_neg (by rw [List.isEmpty_iff]; exact hne)]

/-- Digits around a point are one number. -/
theorem splitNumber?_point {w f rest : List Char} (hw : ∀ c ∈ w, c.isDigit = true) (hne : f ≠ [])
    (hf : ∀ c ∈ f, c.isDigit = true) (hr : ∀ c ∈ rest.head?, c.isDigit = false) :
    splitNumber? (w ++ '.' :: f ++ rest) = some (w ++ '.' :: f, rest) := by
  have hpoint : ∀ c ∈ ('.' :: f ++ rest).head?, c.isDigit = false := by
    intro c hc
    rw [← Option.some.inj hc]
    rfl
  obtain ⟨ht, hd⟩ := takeWhile_append_of_head hw hpoint
  obtain ⟨hft, -⟩ := takeWhile_append_of_head hf hr
  have hfraction : fractionDigits ('.' :: f ++ rest) = f := hft
  obtain ⟨c, cs, rfl⟩ := List.exists_cons_of_ne_nil hne
  unfold splitNumber?
  rw [List.append_assoc, ht, hd]
  dsimp only
  rw [hfraction]
  dsimp only
  rw [List.drop_append_of_le_length (by simp), List.drop_eq_nil_of_le (by simp)]
  rfl

/-- A number that begins with a digit is a token. -/
theorem scanFrom_number {d : Char} {ds rest : List Char} (hd : d.isDigit = true)
    (hn : splitNumber? (d :: ds ++ rest) = some (d :: ds, rest)) :
    scanFrom .math (d :: ds ++ rest) =
      ⟨String.ofList (d :: ds), .number⟩ :: scanFrom .math rest := by
  have hval := toNat_of_isDigit hd
  have hs : skipIgnored false (d :: (ds ++ rest)) = d :: (ds ++ rest) :=
    skipIgnored_cons (isBlank_of_visible (by omega) (by omega))
      (by rintro rfl; exact absurd hd (by decide)) _
  refine scanFrom_of_next ?_
  show mathToken? .math (d :: (ds ++ rest)) = _
  have hcommand : d ≠ '\\' := by
    rintro rfl
    exact absurd hd (by decide)
  rw [mathToken?_of_ne_slash hs hcommand, show d :: (ds ++ rest) = d :: ds ++ rest from rfl, hn]

/-- A number ends where its digits end, unless a point and a digit follow them. -/
theorem scanFrom_digits {ds rest : List Char} (hne : ds ≠ []) (hds : ∀ c ∈ ds, c.isDigit = true)
    (hr : ∀ c ∈ rest.head?, c.isDigit = false) (hf : fractionDigits rest = []) :
    scanFrom .math (ds ++ rest) = ⟨String.ofList ds, .number⟩ :: scanFrom .math rest := by
  have hn := splitNumber?_digits hne hds hr hf
  obtain ⟨d, ds', rfl⟩ : ∃ d ds', ds = d :: ds' := List.exists_cons_of_ne_nil hne
  exact scanFrom_number (hds d List.mem_cons_self) hn

/-- The thin space is a command, whatever comes after it. -/
theorem scanFrom_thinSpace (rest : List Char) :
    scanFrom .math (thinSpace.toList ++ rest) = ⟨thinSpace, .command⟩ :: scanFrom .math rest :=
  scanFrom_of_next rfl

/-! ## Pieces of markup -/

/-- What comes next does not belong to a token before it. -/
def Stops (cs : List Char) : Prop :=
  ∀ c ∈ cs.head?, c.isAlpha = false ∧ c.isDigit = false ∧ c ≠ '.'

/-- The lexer cuts the markup into the tokens and the parser keeps them. -/
structure Scans (s : String) (ts : List Token) : Prop where
  scan : ∀ rest, Stops rest → scanFrom .math (s.toList ++ rest) = ts ++ scanFrom .math rest
  kept : ∀ last rest, ∃ last', dropSpacing last (ts ++ rest) = ts ++ dropSpacing last' rest

/-- The whole markup. -/
theorem Scans.scan_eq {s : String} {ts : List Token} (h : Scans s ts) : Token.scan s = ts := by
  have hs := h.scan [] fun _ hc => absurd hc (by simp)
  rw [List.append_nil, scanFrom_nil, List.append_nil] at hs
  exact hs

/-- What markup scans to by itself, without a state of the parser around it. -/
theorem Scans.ofTokens {s : String} {ts : List Token} (h : Scans s ts) :
    ofTokens (Token.scan s) = ⟨[], ts, [], 0, 0, false⟩ := by
  obtain ⟨last, hk⟩ := h.kept none []
  rw [List.append_nil, show dropSpacing last [] = [] from rfl, List.append_nil] at hk
  rw [Parser.ofTokens, h.scan_eq, hk]

/-- Markup with tokens is not empty. -/
theorem Scans.ne_empty {s : String} {ts : List Token} (h : Scans s ts) (hts : ts ≠ []) :
    s ≠ "" := by
  rintro rfl
  have hs : scanFrom .math [] = ts := h.scan_eq
  rw [scanFrom_nil] at hs
  exact hts hs.symm

/-- A token that is no spacing stays, whatever is around it. -/
theorem kept_of_not_mem {t : Token} (ht : t.raw ∉ spacing) (last : Option Token)
    (rest : List Token) : ∃ last', dropSpacing last ([t] ++ rest) = [t] ++ dropSpacing last' rest := by
  refine ⟨some t, ?_⟩
  show dropSpacing last (t :: rest) = _
  have : spacing.contains t.raw = false := by
    rw [← Bool.not_eq_true, List.contains_iff_mem]
    exact ht
  rw [dropSpacing, this, Bool.false_and, if_neg Bool.false_ne_true]
  rfl

/-- Tokens that stay on either side stay together. -/
theorem kept_append {ts us : List Token}
    (ht : ∀ last rest, ∃ last', dropSpacing last (ts ++ rest) = ts ++ dropSpacing last' rest)
    (hu : ∀ last rest, ∃ last', dropSpacing last (us ++ rest) = us ++ dropSpacing last' rest)
    (last : Option Token) (rest : List Token) :
    ∃ last', dropSpacing last ((ts ++ us) ++ rest) = (ts ++ us) ++ dropSpacing last' rest := by
  obtain ⟨l₁, h₁⟩ := ht last (us ++ rest)
  obtain ⟨l₂, h₂⟩ := hu l₁ rest
  exact ⟨l₂, by rw [List.append_assoc, h₁, h₂, List.append_assoc]⟩

/-- Two pieces, of which the second does not go on with the last token of the first. -/
theorem Scans.append {s s' : String} {ts us : List Token} (h : Scans s ts) (h' : Scans s' us)
    (hs : Stops s'.toList) : Scans (s ++ s') (ts ++ us) := by
  refine ⟨fun rest hr => ?_, kept_append h.kept h'.kept⟩
  have hstop : Stops (s'.toList ++ rest) := by
    cases hl : s'.toList with
    | nil => exact hr
    | cons c cs =>
      rw [hl] at hs
      exact hs
  rw [String.toList_append, List.append_assoc, h.scan _ hstop, h'.scan rest hr, List.append_assoc]

theorem scans_empty : Scans "" [] :=
  ⟨fun _ _ => rfl, fun last _ => ⟨last, rfl⟩⟩

/-- A lone character in front of some markup. -/
theorem Scans.cons {s : String} {ts : List Token} (h : Scans s ts) {c : Char} (hc : Lone c)
    (hk : String.ofList [c] ∉ spacing) :
    Scans (String.ofList [c] ++ s) (loneToken c :: ts) := by
  refine ⟨fun rest hr => ?_, kept_append (kept_of_not_mem hk) h.kept⟩
  rw [String.toList_append, String.toList_ofList, List.append_assoc]
  show scanFrom .math (c :: (s.toList ++ rest)) = _
  rw [scanFrom_lone hc, h.scan rest hr]
  rfl

/-- A lone character is one token. -/
theorem scans_lone {c : Char} (hc : Lone c) (hk : String.ofList [c] ∉ spacing) :
    Scans (String.ofList [c]) [loneToken c] := by
  have h := scans_empty.cons hc hk
  rw [String.append_empty] at h
  exact h

/-- A lone character behind some markup that it does not go on with. -/
theorem Scans.concat {s : String} {ts : List Token} (h : Scans s ts) {c : Char} (hc : Lone c)
    (hk : String.ofList [c] ∉ spacing) (hs : Stops [c]) :
    Scans (s ++ String.ofList [c]) (ts ++ [loneToken c]) := by
  refine h.append (scans_lone hc hk) ?_
  rw [String.toList_ofList]
  exact hs

/-- A control word is one token. -/
theorem scans_controlWord {w : String} (hw : ControlWord w) (hk : w ∉ spacing) :
    Scans w [⟨w, .command⟩] :=
  ⟨fun _ hr => scanFrom_controlWord hw fun c hc => (hr c hc).1, kept_of_not_mem hk⟩

/-! ## Markup that nothing goes on with -/

/-- The lexer cuts the markup into the tokens whatever comes after it, and the parser keeps them. -/
structure Detached (s : String) (ts : List Token) : Prop where
  scan : ∀ rest, scanFrom .math (s.toList ++ rest) = ts ++ scanFrom .math rest
  kept : ∀ last rest, ∃ last', dropSpacing last (ts ++ rest) = ts ++ dropSpacing last' rest

/-- Markup that nothing goes on with scans like any other. -/
theorem Detached.scans {s : String} {ts : List Token} (h : Detached s ts) : Scans s ts :=
  ⟨fun rest _ => h.scan rest, h.kept⟩

theorem detached_empty : Detached "" [] :=
  ⟨fun _ => rfl, fun last _ => ⟨last, rfl⟩⟩

/-- Markup that nothing goes on with, in a row, is such markup. -/
theorem Detached.append {s s' : String} {ts us : List Token} (h : Detached s ts)
    (h' : Detached s' us) : Detached (s ++ s') (ts ++ us) := by
  refine ⟨fun rest => ?_, kept_append h.kept h'.kept⟩
  rw [String.toList_append, List.append_assoc, h.scan, h'.scan, List.append_assoc]

/-- In front of any markup. -/
theorem Detached.before {s s' : String} {ts us : List Token} (h : Detached s ts)
    (h' : Scans s' us) : Scans (s ++ s') (ts ++ us) := by
  refine ⟨fun rest hr => ?_, kept_append h.kept h'.kept⟩
  rw [String.toList_append, List.append_assoc, h.scan, h'.scan rest hr, List.append_assoc]

/-- What ends a piece of markup may be detached from what comes after both. -/
theorem Scans.detach {s s' : String} {ts us : List Token} (h : Scans s ts) (h' : Detached s' us)
    (hs : Stops s'.toList) (hne : s' ≠ "") : Detached (s ++ s') (ts ++ us) := by
  refine ⟨fun rest => ?_, kept_append h.kept h'.kept⟩
  have hstop : Stops (s'.toList ++ rest) := by
    cases hl : s'.toList with
    | nil => exact absurd (String.toList_inj.1 hl) hne
    | cons c cs =>
      rw [hl] at hs
      exact hs
  rw [String.toList_append, List.append_assoc, h.scan _ hstop, h'.scan, List.append_assoc]

/-- A lone character goes on with nothing. -/
theorem detached_lone {c : Char} (hc : Lone c) (hk : String.ofList [c] ∉ spacing) :
    Detached (String.ofList [c]) [loneToken c] := by
  refine ⟨fun rest => ?_, kept_of_not_mem hk⟩
  rw [String.toList_ofList]
  exact scanFrom_lone hc rest

/-- A control word and the blank that ends it. -/
theorem detached_controlWord {w : String} (hw : ControlWord w) (hk : w ∉ spacing) :
    Detached (w ++ " ") [⟨w, .command⟩] := by
  refine ⟨fun rest => ?_, kept_of_not_mem hk⟩
  rw [String.toList_append, List.append_assoc]
  show scanFrom .math (w.toList ++ (' ' :: rest)) = _
  rw [scanFrom_controlWord hw fun c hc => by rw [← Option.some.inj hc]; decide, scanFrom_space]
  rfl

/-- The tokens of braces. -/
def leftBrace : Token := ⟨"\x7b", .openGroup⟩
def rightBrace : Token := ⟨"\x7d", .closeGroup⟩

/-- Markup in braces. -/
theorem detached_braced {s : String} {ts : List Token} (h : Scans s ts) :
    Detached ("\x7b" ++ s ++ "\x7d") (leftBrace :: ts ++ [rightBrace]) := by
  have hleft := detached_lone (c := '{') (by decide) (by decide)
  have hright := detached_lone (c := '}') (by decide) (by decide)
  have hin := h.detach hright (fun c hc => by rw [← Option.some.inj hc]; decide) (by decide)
  rw [String.append_assoc]
  exact hleft.append hin

/-- Braces around markup are tokens around its tokens. -/
theorem Scans.braced {s : String} {ts : List Token} (h : Scans s ts) :
    Scans ("\x7b" ++ s ++ "\x7d") (leftBrace :: ts ++ [rightBrace]) :=
  (detached_braced h).scans

/-- A brace stops a control word in front of it. -/
theorem stops_braced (s : String) : Stops ("\x7b" ++ s).toList := by
  intro c hc
  rw [String.toList_append] at hc
  rw [← Option.some.inj hc]
  decide

/-- Pieces with a separator between them that cuts them off on both sides. -/
theorem Scans.intercalate {α : Type} {f : α → String} {g : α → List Token} {w : String}
    {ws : List Token} {xs : List α} (hw : Detached w ws) (hs : Stops w.toList) (hne : w ≠ "")
    (h : ∀ x ∈ xs, Scans (f x) (g x)) :
    Scans (w.intercalate (xs.map f)) (ws.intercalate (xs.map g)) := by
  induction xs with
  | nil => exact scans_empty
  | cons x xs ih =>
    have hx := h x List.mem_cons_self
    have hrest := ih fun y hy => h y (List.mem_cons_of_mem x hy)
    cases xs with
    | nil =>
      rw [List.map_singleton, String.intercalate_singleton, List.map_singleton,
        List.intercalate_singleton]
      exact hx
    | cons y ys =>
      simp only [List.map_cons] at hrest ⊢
      rw [String.intercalate_cons_cons, List.intercalate_cons_cons]
      exact (hx.detach hw hs hne).before hrest

/-! ## Control words in front of markup -/

/-- The markup with a space in front if a control word before it would swallow its first letter. -/
def glued (s : String) : String :=
  if extendsControlWord s then " " ++ s else s

/-- A text that ends in letters behind a backslash ends in a control word. -/
theorem revEndsWithControlWord_of {cs r : List Char} (hs : ∀ c ∈ cs.head?, c ≠ '*')
    (ht : cs.takeWhile Char.isAlpha ≠ []) (hd : cs.dropWhile Char.isAlpha = '\\' :: r) :
    revEndsWithControlWord cs = true := by
  fun_cases revEndsWithControlWord cs with
  | case1 => rfl
  | case2 rest hno =>
    have hrest : rest = cs := by
      simp only [rest]
      split
      · exact absurd rfl (hs _ rfl)
      · rfl
    obtain ⟨c, letters, hl⟩ := List.exists_cons_of_ne_nil ht
    exact (hno c letters r (by rw [hrest, hl]) (by rw [hrest, hd])).elim

/-- Letters behind a backslash are a control word at the end of any text. -/
theorem endsWithControlWord_letters {w : String}
    (hw : ∃ cs, cs ≠ [] ∧ (∀ c ∈ cs, c.isAlpha = true) ∧ w.toList = '\\' :: cs) (s : String) :
    endsWithControlWord (s ++ w) = true := by
  obtain ⟨cs, hne, hcs, hl⟩ := hw
  have hall : ∀ c ∈ cs.reverse, c.isAlpha = true := fun c hc => hcs c (List.mem_reverse.1 hc)
  -- the markup is looked at from behind: the letters come first, then the backslash
  have hrev : (s ++ w).toList.reverse = cs.reverse ++ ('\\' :: s.toList.reverse) := by
    rw [String.toList_append, List.reverse_append, hl, List.reverse_cons, List.append_assoc]
    rfl
  have hslash : ∀ c ∈ ('\\' :: s.toList.reverse).head?, c.isAlpha = false := by
    intro c hc
    rw [← Option.some.inj hc]
    decide
  obtain ⟨ht, hd⟩ := takeWhile_append_of_head hall hslash
  have hrne : cs.reverse ≠ [] := by rw [Ne, List.reverse_eq_nil_iff]; exact hne
  unfold endsWithControlWord
  rw [hrev]
  refine revEndsWithControlWord_of (fun c hc => ?_) (by rw [ht]; exact hrne) hd
  obtain ⟨d, ds, hr⟩ := List.exists_cons_of_ne_nil hrne
  rw [hr] at hc hall
  rintro rfl
  have hstar : d = '*' := Option.some.inj hc
  exact absurd (hall d List.mem_cons_self) (by rw [hstar]; decide)

/-- A control word at the end of a text is one. -/
theorem endsWithControlWord_append {w : String} (hw : ControlWord w) (s : String) :
    endsWithControlWord (s ++ w) = true :=
  endsWithControlWord_letters hw.letters s

/-- Markup behind a control word. -/
theorem append_controlWord {w : String} (hw : ControlWord w) (s b : String) :
    append (s ++ w) b = s ++ (w ++ glued b) := by
  unfold append glued
  rw [endsWithControlWord_append hw, Bool.and_true]
  split <;> simp only [String.append_assoc]

/-- A control word in front of some markup. -/
theorem Scans.glue {b : String} {ts : List Token} (h : Scans b ts) (hts : ts ≠ []) {w : String}
    (hw : ControlWord w) (hk : w ∉ spacing) :
    Scans (w ++ glued b) (⟨w, .command⟩ :: ts) := by
  refine ⟨fun rest hr => ?_, kept_append (kept_of_not_mem hk) h.kept⟩
  rw [String.toList_append, List.append_assoc]
  unfold glued
  -- a space is put in just if the markup would make the word longer
  by_cases he : extendsControlWord b
  · rw [if_pos he, scanFrom_controlWord hw]
    · rw [String.toList_append, show " ".toList = [' '] from rfl]
      show _ :: scanFrom .math (' ' :: (b.toList ++ rest)) = _
      rw [scanFrom_space, h.scan rest hr]
      rfl
    · intro c hc
      rw [String.toList_append] at hc
      rw [← Option.some.inj hc]
      decide
  · rw [if_neg he, scanFrom_controlWord hw]
    · rw [h.scan rest hr]
      rfl
    · intro c hc
      cases hb : b.toList with
      | nil => exact absurd (String.toList_inj.1 hb) (h.ne_empty hts)
      | cons d ds =>
        rw [hb] at hc
        rw [← Option.some.inj hc]
        unfold extendsControlWord at he
        rw [hb] at he
        simp only [Bool.or_eq_true, not_or, Bool.not_eq_true] at he
        exact he.1

/-- A backslash stops the control word in front of it. -/
theorem stops_controlWord {w : String} (hw : ControlWord w) (s : String) :
    Stops (w ++ s).toList := by
  obtain ⟨cs, -, -, hl⟩ := hw.letters
  intro c hc
  rw [String.toList_append, hl] at hc
  rw [← Option.some.inj hc]
  decide

/-- A control word does not go on with one in front of it. -/
theorem extendsControlWord_controlWord {w : String} (hw : ControlWord w) :
    extendsControlWord w = false := by
  obtain ⟨cs, -, -, hl⟩ := hw.letters
  unfold extendsControlWord
  rw [hl]
  rfl

/-- A control word behind some markup is never swallowed. -/
theorem append_of_controlWord {w : String} (hw : ControlWord w) (s : String) :
    append s w = s ++ w := by
  unfold append
  rw [extendsControlWord_controlWord hw, Bool.false_and, if_neg Bool.false_ne_true]

/-! ## Signs between operands -/

/-- A text that ends in no letter and no star does not end in a control word. -/
theorem endsWithControlWord_concat {c : Char} (hl : c.isAlpha = false) (hs : c ≠ '*')
    (s : String) : endsWithControlWord (s ++ String.ofList [c]) = false := by
  have hrev : (s ++ String.ofList [c]).toList.reverse = c :: s.toList.reverse := by
    rw [String.toList_append, String.toList_ofList, List.reverse_append]
    rfl
  unfold endsWithControlWord
  rw [hrev]
  fun_cases revEndsWithControlWord (c :: s.toList.reverse) with
  | case2 => rfl
  | case1 rest d ds r hd ht =>
    -- the name would have to begin with the last character
    have hrest : rest = c :: s.toList.reverse := by
      simp only [rest]
      split
      next heq =>
        exact absurd (List.cons.inj heq).1 hs
      next => rfl
    rw [hrest, List.takeWhile_cons_of_neg (by rw [hl]; decide)] at ht
    exact absurd ht (by simp)

/-- A sign and the tokens that it makes, whatever stands on its sides. -/
structure Joins (w : String) (ts : List Token) : Prop where
  between : ∀ {sa sb : String} {ta tb : List Token}, Scans sa ta → Scans sb tb → tb ≠ [] →
    Scans (append (append sa w) sb) (ta ++ (ts ++ tb))
  after : ∀ {sa : String} {ta : List Token}, Scans sa ta → Scans (append sa w) (ta ++ ts)

/-- What joins operands may also stand in front of one: its tokens come first. -/
theorem Joins.before {w : String} {ts : List Token} (h : Joins w ts) {sb : String}
    {tb : List Token} (hb : Scans sb tb) (hne : tb ≠ []) : Scans (append w sb) (ts ++ tb) := by
  have hs := h.between scans_empty hb hne
  rw [empty_append] at hs
  exact hs

/-- A control word joins what it stands between, with a space if a letter comes next. -/
theorem joins_controlWord {w : String} (hw : ControlWord w) (hk : w ∉ spacing) :
    Joins w [⟨w, .command⟩] where
  between ha hb hne := by
    rw [append_of_controlWord hw, append_controlWord hw]
    exact ha.append (hb.glue hne hw hk) (stops_controlWord hw _)
  after ha := by
    have hstop := stops_controlWord hw ""
    rw [String.append_empty] at hstop
    rw [append_of_controlWord hw]
    exact ha.append (scans_controlWord hw hk) hstop

/-- A character that is a token of its own and takes nothing in. -/
structure SignChar (c : Char) : Prop where
  lone : Lone c
  letter : c.isAlpha = false
  star : c ≠ '*'
  spacing : String.ofList [c] ∉ spacing

instance (c : Char) : Decidable (SignChar c) :=
  decidable_of_iff (Lone c ∧ c.isAlpha = false ∧ c ≠ '*' ∧ String.ofList [c] ∉ spacing)
    ⟨fun h => ⟨h.1, h.2.1, h.2.2.1, h.2.2.2⟩, fun h => ⟨h.lone, h.letter, h.star, h.spacing⟩⟩

/-- Nothing is swallowed behind a sign, and a sign never is. -/
theorem append_signs {cs : List Char} (h : ∀ c ∈ cs, SignChar c) (hne : cs ≠ []) (s : String) :
    append s (String.ofList cs) = s ++ String.ofList cs ∧
      ∀ b, append (s ++ String.ofList cs) b = s ++ String.ofList cs ++ b := by
  constructor
  · -- a sign at the front does not make a control word longer
    have he : extendsControlWord (String.ofList cs) = false := by
      obtain ⟨c, rest, rfl⟩ := List.exists_cons_of_ne_nil hne
      have hc := h c List.mem_cons_self
      unfold extendsControlWord
      rw [String.toList_ofList]
      show (c.isAlpha || c == '*') = false
      rw [hc.letter, beq_eq_false_iff_ne.2 hc.star]
      rfl
    unfold append
    rw [he, Bool.false_and, if_neg Bool.false_ne_true]
  · intro b
    have hc := h _ (List.getLast_mem hne)
    have hlast : s ++ String.ofList cs =
        s ++ String.ofList cs.dropLast ++ String.ofList [cs.getLast hne] := by
      rw [String.append_assoc, ← String.ofList_append, List.dropLast_concat_getLast]
    unfold append
    rw [hlast, endsWithControlWord_concat hc.letter hc.star, Bool.and_false,
      if_neg Bool.false_ne_true]

/-- Signs stop a control word in front of them. -/
theorem stops_signs {cs : List Char} (h : ∀ c ∈ cs, SignChar c) {s : String}
    (hs : cs = [] → Stops s.toList) : Stops (String.ofList cs ++ s).toList := by
  cases cs with
  | nil =>
    rw [String.ofList_nil, String.empty_append]
    exact hs rfl
  | cons c rest =>
    have hc := h c List.mem_cons_self
    intro d hd
    rw [String.toList_append, String.toList_ofList] at hd
    rw [← Option.some.inj hd]
    exact ⟨hc.letter, hc.lone.digit, hc.lone.point⟩

/-- Signs in front of markup are tokens in front of its tokens. -/
theorem Scans.signs {cs : List Char} (h : ∀ c ∈ cs, SignChar c) {s : String} {ts : List Token}
    (hs : Scans s ts) : Scans (String.ofList cs ++ s) (cs.map loneToken ++ ts) := by
  induction cs with
  | nil =>
    rw [String.ofList_nil, String.empty_append]
    exact hs
  | cons c cs ih =>
    have hc := h c List.mem_cons_self
    have hcons := (ih fun d hd => h d (List.mem_cons_of_mem c hd)).cons hc.lone hc.spacing
    rw [← String.append_assoc, ← String.ofList_append] at hcons
    exact hcons

/-- Signs join what they stand between as they are. -/
theorem joins_signs {cs : List Char} (h : ∀ c ∈ cs, SignChar c) (hne : cs ≠ []) :
    Joins (String.ofList cs) (cs.map loneToken) where
  between {sa sb ta tb} ha hb _ := by
    obtain ⟨hsign, hafter⟩ := append_signs h hne sa
    rw [hsign, hafter, String.append_assoc]
    exact ha.append (hb.signs h) (stops_signs h fun hnil => absurd hnil hne)
  after {sa ta} ha := by
    have hs := scans_empty.signs h
    have hstop := @stops_signs cs h "" fun hnil => absurd hnil hne
    rw [String.append_empty] at hs hstop
    rw [List.append_nil] at hs
    rw [(append_signs h hne sa).1]
    exact ha.append hs hstop

/-- Whether a text is a control word or some signs of one character. This can be evaluated. -/
def isSign (w : String) : Bool :=
  match w.toList with
  | '\\' :: cs => !cs.isEmpty && cs.all Char.isAlpha && !Token.textCommands.contains w &&
    !spacing.contains w
  | cs => !cs.isEmpty && cs.all fun c => !isBlank c && c != '%' && c != '\\' && !c.isDigit &&
    c != '.' && !c.isAlpha && c != '*' && c != '#' && !spacing.contains (String.ofList [c])

/-- The tokens that a sign makes. -/
def signTokens (w : String) : List Token :=
  match w.toList with
  | '\\' :: _ => [⟨w, .command⟩]
  | cs => cs.map loneToken

/-- A sign is a control word or characters that are signs. -/
theorem of_isSign {w : String} (h : isSign w = true) :
    ControlWord w ∧ w ∉ spacing ∧ signTokens w = [⟨w, .command⟩] ∨
      ∃ cs, w = String.ofList cs ∧ cs ≠ [] ∧ (∀ c ∈ cs, SignChar c ∧ c ≠ '#') ∧
        signTokens w = cs.map loneToken := by
  unfold isSign at h
  split at h
  next cs hl =>
    simp only [Bool.and_eq_true, Bool.not_eq_true', List.isEmpty_eq_false_iff] at h
    obtain ⟨⟨⟨hne, hcs⟩, ht⟩, hk⟩ := h
    rw [← Bool.not_eq_true, List.contains_iff_mem] at ht hk
    left
    refine ⟨⟨⟨cs, hne, List.all_eq_true.1 hcs, hl⟩, ht⟩, hk, ?_⟩
    rw [signTokens, hl]
    rfl
  next hno =>
    rw [Bool.and_eq_true, Bool.not_eq_true', List.isEmpty_eq_false_iff] at h
    right
    refine ⟨w.toList, String.ofList_toList.symm, h.1, fun c hc => ?_, ?_⟩
    · -- the checks on each character, put in the order of the structure
      have hall := List.all_eq_true.1 h.2 c hc
      simp only [Bool.and_eq_true, Bool.not_eq_true', bne_iff_ne] at hall
      obtain ⟨⟨⟨⟨⟨⟨⟨⟨hb, hp⟩, hs⟩, hd⟩, hpt⟩, ha⟩, hst⟩, hh⟩, hk⟩ := hall
      rw [← Bool.not_eq_true, List.contains_iff_mem] at hk
      exact ⟨⟨⟨hb, hp, hs, hd, hpt⟩, ha, hst, hk⟩, hh⟩
    · unfold signTokens
      split
      next cs hl =>
        exact absurd hl (hno cs)
      next => rfl

/-- A sign scans to its tokens. -/
theorem scans_sign {w : String} (h : isSign w = true) : Scans w (signTokens w) := by
  rcases of_isSign h with ⟨hw, hk, ht⟩ | ⟨cs, rfl, -, hcs, ht⟩
  · rw [ht]
    exact scans_controlWord hw hk
  · have hsigns := scans_empty.signs fun c hc => (hcs c hc).1
    rw [String.append_empty, List.append_nil] at hsigns
    rw [ht]
    exact hsigns

/-- The trigger that a sign makes. -/
theorem triggerTokens_of_isSign {w : String} (h : isSign w = true) {ws : List String}
    (hws : Token.raws (signTokens w) = ws) : Entry.triggerTokens w = ws := by
  rw [Entry.triggerTokens, (scans_sign h).scan_eq, hws]

/-- Appending signs one by one writes them as they are. -/
theorem foldl_append_signs {cs : List Char} (h : ∀ c ∈ cs, SignChar c) (s : String) :
    (Token.raws (cs.map loneToken)).foldl append s = s ++ String.ofList cs := by
  induction cs generalizing s with
  | nil => exact String.append_empty.symm
  | cons c cs ih =>
    have hc : ∀ d ∈ [c], SignChar d := by
      intro d hd
      rw [List.mem_singleton.1 hd]
      exact h c List.mem_cons_self
    show (Token.raws (cs.map loneToken)).foldl append (append s (String.ofList [c])) = _
    rw [(append_signs hc (List.cons_ne_nil c []) s).1,
      ih (fun d hd => h d (List.mem_cons_of_mem c hd)), String.append_assoc, ← String.ofList_append]
    rfl

/-- A sign is put together again from the tokens of its trigger. -/
theorem join_triggerTokens {w : String} (h : isSign w = true) :
    join (Entry.triggerTokens w) = w := by
  rw [triggerTokens_of_isSign h rfl]
  rcases of_isSign h with ⟨-, -, ht⟩ | ⟨cs, rfl, -, hcs, ht⟩
  · rw [ht]
    exact empty_append w
  · rw [ht, join, foldl_append_signs fun c hc => (hcs c hc).1, String.empty_append]

/-- A sign that begins with a backslash is a control word. -/
theorem controlWord_of_isSign {w : String} (h : (isSign w && w.toList.head? == some '\\') = true) :
    ControlWord w ∧ w ∉ spacing := by
  rw [Bool.and_eq_true, beq_iff_eq] at h
  rcases of_isSign h.1 with ⟨hw, hk, -⟩ | ⟨cs, rfl, hne, hcs, -⟩
  · exact ⟨hw, hk⟩
  · obtain ⟨c, cs, rfl⟩ := List.exists_cons_of_ne_nil hne
    rw [String.toList_ofList] at h
    exact absurd (Option.some.inj h.2) (hcs c List.mem_cons_self).1.lone.command

/-- A sign of either sort joins what it stands between. -/
theorem joins_sign {w : String} (h : isSign w = true) : Joins w (signTokens w) := by
  rcases of_isSign h with ⟨hw, hk, ht⟩ | ⟨cs, rfl, hne, hcs, ht⟩
  · rw [ht]
    exact joins_controlWord hw hk
  · rw [ht]
    exact joins_signs (fun c hc => (hcs c hc).1) hne

end Lexer
end MathMarkup
