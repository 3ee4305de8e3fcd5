import Mathlib.Data.List.Forall2
import MathMarkup.Parser.Recovery
import MathMarkup.Proofs.Conservation
import MathMarkup.Proofs.NameSpelling

/-!
# One control word for another

The parser compares raw texts with its own commands, with the triggers of a lexicon and with the
tables of names. A control word that is in none of them (`FreeWord`) tells it nothing except that it
is a command, so where one free word stands in the place of another (`Token.Renamed`), everything
that looks at tokens only sees the same: it finds the same numerals, groups, texts and names of the
same length.

The reading of names is the one of these functions that looks into groups. It gives up where it
meets a free word, so a name that it reads holds none, and both token lists give the same name
(`body?_renamed`, `identifier?_renamed`).
-/

namespace MathMarkup

/-- The commands that have a meaning without a lexicon, for the parser or as parts of names. -/
def builtIn : List String :=
  Parser.spacing ++ Token.textCommands ++
    ["\\begin", "\\end", "\\operatorname", "\\prime", "\\doubleprime"] ++
    Name.namedSymbols.map (·.command) ++ Name.accents.map (·.markup) ++
    Name.typefaces.map (·.command)

/-- A control word that means nothing unless a lexicon says so. -/
structure FreeWord (w : String) : Prop where
  controlWord : Lexer.ControlWord w
  not_builtIn : w ∉ builtIn

namespace FreeWord

variable {w : String}

/-- A free word is none of the commands with a built-in meaning. -/
theorem ne_of_mem (h : FreeWord w) {s : String} (hs : s ∈ builtIn) : w ≠ s := by
  rintro rfl
  exact h.not_builtIn hs

/-- A control word has a letter in the second place, which no bracket or other mark has. -/
theorem ne_mark (h : FreeWord w) {s : String} (hs : s.toList[1]?.all (!·.isAlpha) = true) :
    w ≠ s := by
  rintro rfl
  obtain ⟨cs, hne, hcs, hl⟩ := h.controlWord.letters
  obtain ⟨c, cs, rfl⟩ := List.exists_cons_of_ne_nil hne
  rw [hl, List.getElem?_cons_succ, List.getElem?_cons_zero, Option.all_some,
    hcs c List.mem_cons_self] at hs
  exact Bool.false_ne_true hs

/-- A free word is no spacing. -/
theorem not_spacing (h : FreeWord w) : w ∉ Parser.spacing := fun hs =>
  h.not_builtIn (by unfold builtIn; simp only [List.append_assoc]; exact List.mem_append_left _ hs)

/-- A free word stands for no escaped character. -/
theorem unescape?_eq (h : FreeWord w) : Name.unescape? w = none := by
  obtain ⟨cs, -, hcs, hl⟩ := h.controlWord.letters
  unfold Name.unescape?
  split
  case h_2 => rfl
  case h_1 c heq =>
    obtain rfl := (List.cons.inj (hl.symm.trans heq)).2
    -- no letter needs a backslash
    rw [if_neg]
    intro hc
    have hletter := hcs c List.mem_cons_self
    rw [List.contains_iff_mem] at hc
    have hnone : Name.escapedChars.all (!·.isAlpha) = true := rfl
    have hmark := List.all_eq_true.1 hnone c hc
    rw [hletter] at hmark
    exact Bool.false_ne_true hmark

/-- A free word is the command of no named symbol. -/
theorem symbolOfCommand?_eq (h : FreeWord w) : Name.symbolOfCommand? w = none := by
  rw [Name.symbolOfCommand?, List.find?_eq_none]
  intro s hs
  rw [beq_iff_eq]
  refine fun heq => h.ne_of_mem (s := s.command) ?_ heq.symm
  exact List.mem_append_left _ (List.mem_append_left _
    (List.mem_append_right _ (List.mem_map_of_mem hs)))

/-- A free word is the command of no accent. -/
theorem accentOfCommand?_eq (h : FreeWord w) : Name.accentOfCommand? w = none := by
  rw [Name.accentOfCommand?, List.find?_eq_none]
  intro accent ha
  rw [Bool.and_eq_true, beq_iff_eq, beq_iff_eq]
  refine fun heq => h.ne_of_mem (s := accent.markup) ?_ heq.2.symm
  exact List.mem_append_left _ (List.mem_append_right _ (List.mem_map_of_mem ha))

/-- A free word is the command of no typeface. -/
theorem isTypeface_eq (h : FreeWord w) : Name.isTypeface w = false := by
  have hface : Name.typefaceOfCommand? w = none := by
    rw [Name.typefaceOfCommand?, List.find?_eq_none]
    intro face hf
    rw [beq_iff_eq]
    refine fun heq => h.ne_of_mem (s := face.command) ?_ heq.symm
    exact List.mem_append_right _ (List.mem_map_of_mem hf)
  rw [Name.isTypeface, hface, beq_eq_false_iff_ne.2 (h.ne_of_mem (by decide))]
  rfl

end FreeWord

/-! ## Renamed tokens -/

/-- The tokens are the same, or the command `c` is in the place of the command `a`. -/
def Token.Renamed (a c : String) (t u : Token) : Prop :=
  t = u ∨ t = ⟨a, .command⟩ ∧ u = ⟨c, .command⟩

/-- As many tokens, in some of which the command `c` is in the place of the command `a`. -/
abbrev Token.AllRenamed (a c : String) (ts us : List Token) : Prop :=
  List.Forall₂ (Token.Renamed a c) ts us

namespace Token

variable {a c : String} {t u : Token} {ts us : List Token}

/-- A token is renamed to itself. -/
theorem renamed_refl (t : Token) : Renamed a c t t := Or.inl rfl

theorem allRenamed_refl (ts : List Token) : AllRenamed a c ts ts :=
  List.forall₂_same.2 fun t _ => renamed_refl t

/-- Renaming keeps the kind of a token. -/
theorem Renamed.kind_eq (h : Renamed a c t u) : t.kind = u.kind := by
  rcases h with rfl | ⟨rfl, rfl⟩ <;> rfl

/-- Only commands are renamed. -/
theorem Renamed.eq_of_kind (h : Renamed a c t u) (hk : t.kind ≠ .command) : t = u := by
  rcases h with rfl | ⟨rfl, rfl⟩
  · rfl
  · exact absurd rfl hk

/-- A raw text other than the two words is on both sides or on neither. -/
theorem Renamed.raw_iff (h : Renamed a c t u) {w : String} (ha : a ≠ w) (hc : c ≠ w) :
    t.raw = w ↔ u.raw = w := by
  rcases h with rfl | ⟨rfl, rfl⟩
  · exact Iff.rfl
  · exact ⟨fun h => absurd h ha, fun h => absurd h hc⟩

/-- A mark that begins like no control word is at the same places. -/
theorem Renamed.mark_iff (h : Renamed a c t u) (ha : FreeWord a) (hc : FreeWord c) {s : String}
    (hs : s.toList[1]?.all (!·.isAlpha) = true) : t.raw = s ↔ u.raw = s :=
  h.raw_iff (ha.ne_mark hs) (hc.ne_mark hs)

/-- A command with a built-in meaning is at the same places. -/
theorem Renamed.builtIn_iff (h : Renamed a c t u) (ha : FreeWord a) (hc : FreeWord c) {s : String}
    (hs : s ∈ builtIn) : t.raw = s ↔ u.raw = s :=
  h.raw_iff (ha.ne_of_mem hs) (hc.ne_of_mem hs)

/-- A token other than the two commands is on both sides or on neither. -/
theorem Renamed.eq_iff (h : Renamed a c t u) {v : Token} (ha : a ≠ v.raw) (hc : c ≠ v.raw) :
    t = v ↔ u = v := by
  rcases h with rfl | ⟨rfl, rfl⟩
  · exact Iff.rfl
  · exact ⟨fun h => absurd (congrArg raw h) ha, fun h => absurd (congrArg raw h) hc⟩

/-- The first tokens are the same but for the words. -/
theorem head?_renamed (h : AllRenamed a c ts us) : Option.Rel (Renamed a c) ts.head? us.head? := by
  cases h with
  | nil => exact .none
  | cons htu _ => exact .some htu

theorem isEmpty_renamed (h : AllRenamed a c ts us) : ts.isEmpty = us.isEmpty := by
  cases h with
  | nil => rfl
  | cons _ _ => rfl

/-- Raw texts other than the two words are on both sides or on neither. -/
theorem raws_renamed_iff (h : AllRenamed a c ts us) {raws : List String} (ha : a ∉ raws)
    (hc : c ∉ raws) : Token.raws ts = raws ↔ Token.raws us = raws := by
  induction h generalizing raws with
  | nil => exact Iff.rfl
  | @cons t u ts us htu _ ih =>
    cases raws with
    | nil => exact ⟨nofun, nofun⟩
    | cons w raws =>
      rw [List.mem_cons, not_or] at ha hc
      show t.raw :: Token.raws ts = _ ↔ u.raw :: Token.raws us = _
      rw [List.cons.injEq, List.cons.injEq, htu.raw_iff ha.1 hc.1, ih ha.2 hc.2]

end Token

/-! ## What the parser sees -/

/-- Appending is empty only for empty texts. -/
theorem isEmpty_append (s w : String) : (append s w).isEmpty = (s.isEmpty && w.isEmpty) := by
  by_cases hw : w.isEmpty = true
  · rw [String.isEmpty_iff.1 hw, append_empty, show "".isEmpty = true from rfl, Bool.and_true]
  · rw [Bool.not_eq_true] at hw
    rw [hw, Bool.and_false, Bool.eq_false_iff, ne_eq, String.isEmpty_iff]
    intro he
    rw [append] at he
    -- with or without a space in between, the fragment is still there
    have hw' : w = "" := by
      split at he
      · exact (String.append_eq_empty_iff.1 he).2
      · exact (String.append_eq_empty_iff.1 he).2
    rw [hw'] at hw
    exact absurd hw (by decide)

/-- Texts that are appended one by one are empty only if each of them is. -/
theorem isEmpty_foldl_append (ws : List String) (s : String) :
    (ws.foldl append s).isEmpty = (s.isEmpty && ws.all String.isEmpty) := by
  induction ws generalizing s with
  | nil => simp
  | cons w ws ih => rw [List.foldl_cons, ih, isEmpty_append, List.all_cons, Bool.and_assoc]

theorem FreeWord.isEmpty_eq {w : String} (h : FreeWord w) : w.isEmpty = false := by
  rw [Bool.eq_false_iff, ne_eq, String.isEmpty_iff]
  exact h.ne_mark (by decide)

/-- The texts of some tokens, in which one word is in the place of another. -/
def Token.RenamedText (a c : String) (s s' : String) : Prop :=
  ∃ ts us, Token.AllRenamed a c ts us ∧ s = Token.text ts ∧ s' = Token.text us

namespace Parser

open Token

variable {a c : String} {t u : Token} {ts us : List Token}

/-- Both spellings are empty or neither is. -/
theorem isEmpty_spell_renamed (ha : FreeWord a) (hc : FreeWord c) (h : AllRenamed a c ts us) :
    (spell ts).isEmpty = (spell us).isEmpty := by
  have hall : (raws ts).all String.isEmpty = (raws us).all String.isEmpty := by
    induction h with
    | nil => rfl
    | @cons t u ts us htu _ ih =>
      show (t.raw.isEmpty && (raws ts).all String.isEmpty) =
        (u.raw.isEmpty && (raws us).all String.isEmpty)
      rcases htu with rfl | ⟨rfl, rfl⟩
      · rw [ih]
      · rw [ha.isEmpty_eq, hc.isEmpty_eq, Bool.false_and, Bool.false_and]
  rw [spell, spell, join, join, isEmpty_foldl_append, isEmpty_foldl_append, hall]

/-- A number is a number in both. -/
theorem isNumber_renamed {o o' : Option Token} (h : Option.Rel (Renamed a c) o o') :
    isNumber o = isNumber o' := by
  cases h with
  | none => rfl
  | some htu => rw [isNumber, isNumber, htu.kind_eq]

/-- The same tokens are dropped. -/
theorem dropSpacing_renamed (ha : FreeWord a) (hc : FreeWord c) {last last' : Option Token}
    (hl : Option.Rel (Renamed a c) last last') (h : AllRenamed a c ts us) :
    AllRenamed a c (dropSpacing last ts) (dropSpacing last' us) := by
  induction h generalizing last last' with
  | nil => exact .nil
  | @cons t u ts us htu hts ih =>
    rw [dropSpacing, dropSpacing, isNumber_renamed hl, isNumber_renamed (head?_renamed hts)]
    rcases htu with rfl | ⟨rfl, rfl⟩
    · split
      · exact ih hl
      · exact .cons (renamed_refl _) (ih (.some (renamed_refl _)))
    · have hword : ∀ {w : String}, FreeWord w → spacing.contains w = false := fun hw => by
        rw [Bool.eq_false_iff, ne_eq, List.contains_iff_mem]
        exact hw.not_spacing
      have hac : Renamed a c ⟨a, .command⟩ ⟨c, .command⟩ := Or.inr ⟨rfl, rfl⟩
      rw [hword ha, hword hc]
      exact .cons hac (ih (.some hac))

/-- The groups of digits are the same, as no word is a digit. -/
theorem digitGroups_renamed (ha : FreeWord a) (hc : FreeWord c) (h : AllRenamed a c ts us) :
    digitGroups ts = digitGroups us := by
  -- neither word is a number or a thin space, so both lists are read the same way
  fun_induction digitGroups ts generalizing us with
  | case1 =>
    cases h
    rfl
  | @case2 t hk sep rest hsep r ih =>
    obtain _ | ⟨htu, _ | ⟨hss, hrest⟩⟩ := h
    obtain rfl := htu.eq_of_kind (by rw [hk]; decide)
    unfold digitGroups
    rw [if_pos hk]
    dsimp only
    rw [if_pos ((hss.mark_iff ha hc (by decide)).1 hsep), ← ih hrest]
  | case3 t hk sep rest hsep =>
    obtain _ | ⟨htu, _ | ⟨hss, hrest⟩⟩ := h
    obtain rfl := htu.eq_of_kind (by rw [hk]; decide)
    unfold digitGroups
    rw [if_pos hk]
    dsimp only
    rw [if_neg fun h => hsep ((hss.mark_iff ha hc (by decide)).2 h)]
  | case4 t hk =>
    obtain _ | ⟨htu, _ | _⟩ := h
    obtain rfl := htu.eq_of_kind (by rw [hk]; decide)
    unfold digitGroups
    rw [if_pos hk]
  | case5 t ts hk =>
    obtain _ | ⟨htu, -⟩ := h
    unfold digitGroups
    rw [if_neg fun h => hk (htu.kind_eq.trans h)]

/-- The digits under an overline are the same. -/
theorem overlined?_renamed (ha : FreeWord a) (hc : FreeWord c) (h : AllRenamed a c ts us) :
    overlined? ts = overlined? us := by
  obtain _ | ⟨hl, _ | ⟨hb, _ | @⟨digits, _, _, _, hd, _ | ⟨hr, -⟩⟩⟩⟩ := h
  · rfl
  · rfl
  · rfl
  · rfl
  · unfold overlined?
    dsimp only
    have hl : _ ↔ _ = "\\overline" := hl.builtIn_iff ha hc (by decide)
    have hb : _ ↔ _ = "\x7b" := hb.mark_iff ha hc (by decide)
    simp only [hl, hb, hr.kind_eq]
    -- the digits are a number, so they are the same on both sides
    by_cases hk : digits.kind = .number
    · rw [hd.eq_of_kind (by rw [hk]; decide)]
    · rw [if_neg fun h => hk h.2.2.1, if_neg fun h => hk (hd.kind_eq.trans h.2.2.1)]

/-- The repeating part is the same. -/
theorem repeatingPart?_renamed (ha : FreeWord a) (hc : FreeWord c) (h : AllRenamed a c ts us)
    (pointed : Bool) : repeatingPart? pointed ts = repeatingPart? pointed us := by
  unfold repeatingPart?
  rw [overlined?_renamed ha hc h]
  obtain _ | ⟨hp, hrest⟩ := h
  · rfl
  · dsimp only
    have hp : _ ↔ _ = "." := hp.mark_iff ha hc (by decide)
    simp only [hp, overlined?_renamed ha hc hrest]

/-- A group is as long in both. -/
theorem groupSpan_renamed (h : AllRenamed a c ts us) (depth : Nat) :
    groupSpan depth ts = groupSpan depth us := by
  induction h generalizing depth with
  | nil => rfl
  | cons htu _ ih =>
    unfold groupSpan
    simp only [htu.kind_eq, ih]

/-- The same digit is cut off. -/
theorem splitDigit?_renamed (h : Renamed a c t u) : splitDigit? t = splitDigit? u := by
  rcases h with rfl | ⟨rfl, rfl⟩
  · rfl
  · rfl

/-- The text of one more token. -/
theorem text_append_token (ts : List Token) (t : Token) :
    Token.text (ts ++ [t]) = Token.text ts ++ t.raw := by
  simp [Token.text, Token.raws]

/-- The names of the environments that come next. -/
theorem environmentNameFrom_renamed (h : AllRenamed a c ts us) {name name' : String}
    (hn : RenamedText a c name name') :
    Option.Rel (RenamedText a c) (environmentNameFrom name ts).1 (environmentNameFrom name' us).1 ∧
      (environmentNameFrom name ts).2 = (environmentNameFrom name' us).2 := by
  induction h generalizing name name' with
  | nil => exact ⟨.none, rfl⟩
  | @cons t u ts us htu _ ih =>
    have hlonger : RenamedText a c (name ++ t.raw) (name' ++ u.raw) := by
      obtain ⟨before, before', hb, rfl, rfl⟩ := hn
      exact ⟨before ++ [t], before' ++ [u], List.rel_append hb (.cons htu .nil),
        (text_append_token before t).symm, (text_append_token before' u).symm⟩
    obtain ⟨ih, ihlen⟩ := ih hlonger
    unfold environmentNameFrom
    rw [← htu.kind_eq]
    cases t.kind with
    | closeGroup => exact ⟨.some hn, rfl⟩
    | openGroup => exact ⟨.none, rfl⟩
    | _ => exact ⟨ih, congrArg (· + 1) ihlen⟩

/-- The names of the environments are the same but for the words, and as long. -/
theorem environmentName_renamed (ha : FreeWord a) (hc : FreeWord c) (h : AllRenamed a c ts us) :
    Option.Rel (RenamedText a c) (environmentName ts).1 (environmentName us).1 ∧
      (environmentName ts).2 = (environmentName us).2 := by
  obtain _ | ⟨htu, hts⟩ := h
  · exact ⟨.none, rfl⟩
  · unfold environmentName
    obtain ⟨hname, hlen⟩ := environmentNameFrom_renamed hts (⟨[], [], .nil, rfl, rfl⟩ :
      RenamedText a c "" "")
    have htu : _ ↔ _ = "\x7b" := htu.mark_iff ha hc (by decide)
    simp only [htu]
    split
    · exact ⟨hname, congrArg (· + 1) hlen⟩
    · exact ⟨.none, rfl⟩

/-- What stopped the parse is called the same, up to the name of a command. -/
theorem unexpected_renamed {o o' : Option Token} (h : Option.Rel (Renamed a c) o o') :
    (unexpected o).1 = (unexpected o').1 ∧
      (unexpected o).2.isSome = (unexpected o').2.isSome := by
  cases h with
  | none => exact ⟨rfl, rfl⟩
  | some htu =>
    unfold unexpected
    dsimp only
    rw [htu.kind_eq]
    split
    · exact ⟨rfl, rfl⟩
    · exact ⟨rfl, rfl⟩

end Parser

/-! ## What the names see -/

namespace Name

open Token

variable {a c : String} {t u : Token} {ts us : List Token}

section

variable {α β γ δ : Type} {R : α → β → Prop} {o : Option α} {o' : Option β}

/-- Related options map to related options. -/
theorem rel_map {S : γ → δ → Prop} {f : α → γ} {g : β → δ} (h : Option.Rel R o o')
    (hfg : ∀ x y, R x y → S (f x) (g y)) : Option.Rel S (o.map f) (o'.map g) := by
  cases h with
  | none => exact .none
  | some hxy => exact .some (hfg _ _ hxy)

/-- Related options go on to related options. -/
theorem rel_bind {S : γ → δ → Prop} {f : α → Option γ} {g : β → Option δ} (h : Option.Rel R o o')
    (hfg : ∀ x y, R x y → Option.Rel S (f x) (g y)) : Option.Rel S (o.bind f) (o'.bind g) := by
  cases h with
  | none => exact .none
  | some hxy => exact hfg _ _ hxy

/-- Related options go on to the same, if what comes next does not tell them apart. -/
theorem bind_eq_of_rel {f : α → Option γ} {g : β → Option γ} (h : Option.Rel R o o')
    (hfg : ∀ x y, o = some x → R x y → f x = g y) : o.bind f = o'.bind g := by
  cases h with
  | none => rfl
  | some hxy => exact hfg _ _ rfl hxy

/-- Reading each of two related lists gives the same, if no reader tells the members apart. -/
theorem mapM_eq_of_forall₂ {f : α → Option γ} {g : β → Option γ} {as : List α} {bs : List β}
    (h : List.Forall₂ R as bs) (hfg : ∀ x y, x ∈ as → R x y → f x = g y) :
    as.mapM f = bs.mapM g := by
  induction h with
  | nil => rfl
  | @cons x y as bs hxy _ ih =>
    rw [List.mapM_cons, List.mapM_cons, hfg x y List.mem_cons_self hxy,
      ih fun x y hx => hfg x y (List.mem_cons_of_mem _ hx)]

end

/-- The contents of some braces and the tokens after them are renamed. -/
def BothRenamed (a c : String) (r s : List Token × List Token) : Prop :=
  AllRenamed a c r.1 s.1 ∧ AllRenamed a c r.2 s.2

/-- The contents of a group are the same but for the words. -/
theorem splitClose?_renamed (h : AllRenamed a c ts us) (depth : Nat) :
    Option.Rel (BothRenamed a c) (splitClose? depth ts) (splitClose? depth us) := by
  induction h generalizing depth with
  | nil => exact .none
  | @cons t u ts us htu hts ih =>
    have hcons : ∀ d, Option.Rel (BothRenamed a c)
        ((splitClose? d ts).map fun r => (t :: r.1, r.2))
        ((splitClose? d us).map fun r => (u :: r.1, r.2)) :=
      fun d => rel_map (ih d) fun _ _ hr => ⟨.cons htu hr.1, hr.2⟩
    unfold splitClose?
    rw [← htu.kind_eq]
    cases t.kind with
    | closeGroup =>
      cases depth with
      | zero => exact .some ⟨.nil, hts⟩
      | succ d => exact hcons d
    | _ => exact hcons _

/-- A group in braces is the same but for the words. -/
theorem group?_renamed (h : AllRenamed a c ts us) :
    Option.Rel (BothRenamed a c) (group? ts) (group? us) := by
  obtain _ | ⟨htu, hts⟩ := h
  · exact .none
  · rw [group?, group?, htu.kind_eq]
    split
    · exact splitClose?_renamed hts 0
    · exact .none

/-- An argument is the same but for the words. -/
theorem argument?_renamed (h : AllRenamed a c ts us) :
    Option.Rel (BothRenamed a c) (argument? ts) (argument? us) := by
  obtain _ | @⟨t, u, _, _, htu, hts⟩ := h
  · exact .none
  · unfold argument?
    dsimp only
    rw [← htu.kind_eq]
    cases t.kind with
    | openGroup => exact splitClose?_renamed hts 0
    | closeGroup => exact .none
    | _ => exact .some ⟨.cons htu .nil, hts⟩

/-- A token in front of the first piece. -/
theorem rel_ontoFirst (htu : Renamed a c t u) {pieces pieces' : List (List Token)}
    (h : List.Forall₂ (AllRenamed a c) pieces pieces') :
    List.Forall₂ (AllRenamed a c) (ontoFirst [t] pieces) (ontoFirst [u] pieces') := by
  cases h with
  | nil => exact .cons (.cons htu .nil) .nil
  | cons hp hps => exact .cons (.cons htu hp) hps

/-- The pieces between commas are the same but for the words. -/
theorem splitCommas_renamed (ha : FreeWord a) (hc : FreeWord c) (h : AllRenamed a c ts us)
    (depth : Nat) :
    List.Forall₂ (AllRenamed a c) (splitCommas depth ts) (splitCommas depth us) := by
  induction h generalizing depth with
  | nil => exact .cons .nil .nil
  | @cons t u ts us htu _ ih =>
    have hcomma : _ ↔ _ = "," := htu.mark_iff ha hc (by decide)
    unfold splitCommas
    simp only [htu.kind_eq, hcomma]
    split
    · exact .cons .nil (ih 0)
    · exact rel_ontoFirst htu (ih _)

/-- As many units are counted. -/
theorem countUnitsFrom_renamed (h : AllRenamed a c ts us) (depth : Nat) (absorbing : Bool) :
    countUnitsFrom depth absorbing ts = countUnitsFrom depth absorbing us := by
  induction h generalizing depth absorbing with
  | nil => rfl
  | @cons t u ts us htu _ ih =>
    have habsorbs : t.absorbsGroups = u.absorbsGroups := by
      rcases htu with rfl | ⟨rfl, rfl⟩ <;> rfl
    unfold countUnitsFrom
    simp only [htu.kind_eq, habsorbs, ih]

/-- A verbatim text is the same, since it is no command. -/
theorem verbatim?_renamed (ha : FreeWord a) (hc : FreeWord c) (h : AllRenamed a c ts us) :
    verbatim? ts = verbatim? us := by
  refine congrArg (Option.map _) (mapM_eq_of_forall₂ h fun t u _ htu => ?_)
  rcases htu with rfl | ⟨rfl, rfl⟩
  · rfl
  · rw [if_pos rfl, if_pos rfl, ha.unescape?_eq, hc.unescape?_eq]

/-- A typeface sees no free word, since it reads a word of letters. -/
theorem styled?_renamed (ha : FreeWord a) (hc : FreeWord c) (h : AllRenamed a c ts us)
    (command : String) (body : Option Parts) :
    styled? command ts body = styled? command us body := by
  unfold styled?
  rw [verbatim?_renamed ha hc h, countUnits, countUnits, countUnitsFrom_renamed h]

/-- A prime is a prime in both. -/
theorem primeName?_renamed (ha : FreeWord a) (hc : FreeWord c) (h : AllRenamed a c ts us) :
    primeName? ts = primeName? us := by
  obtain _ | ⟨htu, _ | ⟨_, _⟩⟩ := h
  · rfl
  · have hprime : _ ↔ _ = "\\prime" := htu.builtIn_iff ha hc (by decide)
    have hdouble : _ ↔ _ = "\\doubleprime" := htu.builtIn_iff ha hc (by decide)
    unfold primeName?
    simp only [hprime, hdouble]
  · rfl

/-- A body never gets past a free word. -/
theorem body?_freeWord {w : String} (hw : FreeWord w) (parts : Parts) (ts : List Token) :
    body? parts (⟨w, .command⟩ :: ts) = none := by
  rw [body?_cons]
  dsimp only
  rw [if_neg (hw.ne_of_mem (by decide)), hw.accentOfCommand?_eq, hw.isTypeface_eq,
    hw.symbolOfCommand?_eq]
  dsimp only
  rw [hw.unescape?_eq]
  rfl

/-- If what is behind a token reads alike under either name, and so do the groups there, then so
does the body that begins with the token. -/
theorem body?_cons_renamed (ha : FreeWord a) (hc : FreeWord c) (t : Token)
    (hts : AllRenamed a c ts us)
    (hbody : ∀ {rest rest' : List Token} (parts : Parts), rest.length ≤ ts.length →
      AllRenamed a c rest rest' → body? parts rest = body? parts rest')
    (parts : Parts) : body? parts (t :: ts) = body? parts (t :: us) := by
  have hpush : ∀ o : Option Parts, (o.bind fun p => body? p ts) = o.bind fun p => body? p us := by
    intro o
    simp only [hbody _ (Nat.le_refl _) hts]
  have hmerge : ∀ {r s : List Token × List Token} (other : Option Parts),
      r.2.length ≤ ts.length → BothRenamed a c r s →
        mergeThen parts other r.2 = mergeThen parts other s.2 := by
    intro r s other hlen hrs
    unfold mergeThen
    simp only [hbody _ hlen hrs.2]
  have hnames : ∀ {r s : List Token × List Token}, r.1.length ≤ ts.length →
      BothRenamed a c r s → names? r.1 = names? s.1 := by
    intro r s hlen hrs
    refine mapM_eq_of_forall₂ (splitCommas_renamed ha hc hrs.1 0) fun piece piece' hp hpp => ?_
    rw [hbody _ (Nat.le_trans (length_mem_splitCommas hp) hlen) hpp]
  rw [body?_cons, body?_cons]
  -- the cases are those of the token that both bodies start with
  cases t.kind with
  | closeGroup => rfl
  | openGroup =>
    refine bind_eq_of_rel (group?_renamed (.cons (renamed_refl t) hts)) fun r s hr hrs => ?_
    have hlen := length_group? hr
    rw [List.length_cons] at hlen
    rw [hbody {} (by omega) hrs.1, hmerge _ (by omega) hrs]
  | command =>
    dsimp only
    split
    · exact hbody _ (Nat.le_refl _) hts
    · cases accentOfCommand? t.raw with
      | some accent =>
        refine bind_eq_of_rel (argument?_renamed hts) fun r s hr hrs => ?_
        have hlen := length_argument? hr
        rw [hbody {} (by omega) hrs.1, hmerge _ (by omega) hrs]
      | none =>
        cases isTypeface t.raw with
        | true =>
          refine bind_eq_of_rel (group?_renamed hts) fun r s hr hrs => ?_
          have hlen := length_group? hr
          rw [hbody {} (by omega) hrs.1, styled?_renamed ha hc hrs.1, hmerge _ (by omega) hrs]
        | false =>
          cases symbolOfCommand? t.raw with
          | some symbol => exact hpush _
          | none => simp only [hpush]
  | char =>
    dsimp only
    split
    · refine bind_eq_of_rel (argument?_renamed hts) fun r s hr hrs => ?_
      have hlen := length_argument? hr
      simp only [hnames (by omega) hrs, hbody _ (show r.2.length ≤ _ by omega) hrs.2]
    · split
      · refine bind_eq_of_rel (argument?_renamed hts) fun r s hr hrs => ?_
        have hlen := length_argument? hr
        simp only [primeName?_renamed ha hc hrs.1, hnames (by omega) hrs,
          hbody _ (show r.2.length ≤ _ by omega) hrs.2]
      · exact hpush _
  | _ => exact hpush _

/-- Both bodies say the same. The induction is on the number of tokens, since the contents of groups
are bodies of their own; a renamed token ends both bodies. -/
theorem body?_renamed (ha : FreeWord a) (hc : FreeWord c) (h : AllRenamed a c ts us)
    (parts : Parts) : body? parts ts = body? parts us := by
  induction hn : ts.length using Nat.strongRecOn generalizing parts ts us with
  | ind n ih =>
    obtain _ | ⟨htu, hts⟩ := h
    · rfl
    · rcases htu with rfl | ⟨rfl, rfl⟩
      · rw [List.length_cons] at hn
        exact body?_cons_renamed ha hc _ hts (fun p hlen hr => ih _ (by omega) hr p rfl) parts
      · rw [body?_freeWord ha, body?_freeWord hc]

/-- No name begins with a free word. -/
theorem readIdentifier?_freeWord {w : String} (hw : FreeWord w) (ts : List Token) :
    readIdentifier? (⟨w, .command⟩ :: ts) = none := by
  unfold readIdentifier?
  dsimp only
  rw [hw.symbolOfCommand?_eq, hw.accentOfCommand?_eq, hw.isTypeface_eq]

/-- Both token lists begin with the same name, or neither begins with one. -/
theorem readIdentifier?_renamed (ha : FreeWord a) (hc : FreeWord c) (h : AllRenamed a c ts us) :
    Option.Rel (fun r s => r.1 = s.1 ∧ AllRenamed a c r.2 s.2) (readIdentifier? ts)
      (readIdentifier? us) := by
  obtain _ | @⟨t, u, ts, us, htu, hts⟩ := h
  · exact .none
  · rcases htu with rfl | ⟨rfl, rfl⟩
    · rw [readIdentifier?, readIdentifier?]
      cases t.kind with
      | char =>
        dsimp only
        cases charName? t.raw with
        | none => exact .none
        | some name => exact .some ⟨rfl, hts⟩
      | command =>
        dsimp only
        cases symbolOfCommand? t.raw with
        | some symbol => exact .some ⟨rfl, hts⟩
        | none =>
          cases accentOfCommand? t.raw with
          | some accent =>
            refine rel_bind (argument?_renamed hts) fun r s hrs => ?_
            rw [body?_renamed ha hc hrs.1]
            cases body? {} s.1 with
            | none => exact .none
            | some parts => exact .some ⟨rfl, hrs.2⟩
          | none =>
            cases isTypeface t.raw with
            | true =>
              refine rel_bind (group?_renamed hts) fun r s hrs => ?_
              rw [body?_renamed ha hc hrs.1, styled?_renamed ha hc hrs.1]
              cases styled? t.raw s.1 (body? {} s.1) with
              | none => exact .none
              | some parts => exact .some ⟨rfl, hrs.2⟩
            | false => exact .none
      | _ => exact .none
    · -- the two words begin no name
      rw [readIdentifier?_freeWord ha, readIdentifier?_freeWord hc]
      exact .none

/-- Both token lists begin with the same name of the same length, or neither begins with one. -/
theorem identifier?_renamed (ha : FreeWord a) (hc : FreeWord c) (h : AllRenamed a c ts us) :
    identifier? ts = identifier? us := by
  unfold identifier?
  have hread := readIdentifier?_renamed ha hc h
  generalize readIdentifier? ts = o at hread ⊢
  generalize readIdentifier? us = o' at hread ⊢
  cases hread with
  | none => rfl
  | some hrs => rw [Option.map_some, Option.map_some, hrs.1, hrs.2.length_eq, h.length_eq]

end Name
end MathMarkup
