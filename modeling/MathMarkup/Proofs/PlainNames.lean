import MathMarkup.Proofs.Braces
import MathMarkup.Proofs.Layout
import MathMarkup.Proofs.NameTokens
import MathMarkup.Proofs.WireSafety

/-!
# Names without backslashes

No name in a parse has a backslash in it, whatever the markup is (`Parser.slashless_of_calls`). A
name is put together from the texts of tokens, and commands stand for texts without backslashes
there. What is left are the verbatim arguments of text commands, which may hold anything. They come
right behind a text command and its brace (`Token.Led`), and a name that would go on to such an
argument would have to take the text command, which is no part of any name.
-/

namespace MathMarkup

/-- No backslash stands in the text. -/
abbrev Slashless (s : String) : Prop :=
  '\\' ∉ s.toList

namespace Name

/-! ## The tables -/

/-- No backslash stands in the names of symbols, accents and typefaces and in words for digits. -/
theorem slashless_tables :
    (namedSymbols.all fun s => decide (Slashless s.name)) = true ∧
    (accents.all fun a => decide (Slashless a.name)) = true ∧
    (typefaces.all fun t => decide (Slashless t.name)) = true ∧
    (digitWords.all fun d => decide (Slashless d.1)) = true := by
  decide +kernel

theorem slashless_symbol {s : NamedSymbol} (h : s ∈ namedSymbols) : Slashless s.name :=
  of_decide_eq_true (List.all_eq_true.1 slashless_tables.1 s h)

theorem slashless_accent {command : String} {a : Accent} (h : accentOfCommand? command = some a) :
    Slashless a.name :=
  of_decide_eq_true (List.all_eq_true.1 slashless_tables.2.1 a (List.mem_of_find?_eq_some h))

theorem slashless_typeface {command : String} {t : Typeface}
    (h : typefaceOfCommand? command = some t) : Slashless t.name :=
  of_decide_eq_true (List.all_eq_true.1 slashless_tables.2.2.1 t (List.mem_of_find?_eq_some h))

theorem slashless_digitWord {d : String × String} (h : d ∈ digitWords) : Slashless d.1 :=
  of_decide_eq_true (List.all_eq_true.1 slashless_tables.2.2.2 d h)

theorem slashless_of_unescape? {command : String} {c : Char} (h : unescape? command = some c) :
    Slashless (String.ofList [c]) := by
  have hchars : '\\' ∉ escapedChars := by decide
  unfold unescape? at h
  split at h
  · split at h
    next hc =>
      obtain rfl := Option.some.inj h
      rw [Slashless, String.toList_ofList, List.mem_singleton]
      rintro rfl
      exact hchars (List.contains_iff_mem.1 hc)
    next => cases h
  · cases h

/-! ## Parts -/

/-- No backslash stands in any part of the name. -/
structure Parts.Slashless (p : Parts) : Prop where
  base : MathMarkup.Slashless p.base
  accents : ∀ w ∈ p.accents, MathMarkup.Slashless w
  typefaces : ∀ w ∈ p.typefaces, MathMarkup.Slashless w
  above : ∀ w ∈ p.above, MathMarkup.Slashless w
  below : ∀ w ∈ p.below, MathMarkup.Slashless w

/-- Texts in a row have a backslash only if one of them has. -/
theorem slashless_append {a b : String} :
    Slashless (a ++ b) ↔ Slashless a ∧ Slashless b := by
  rw [Slashless, String.toList_append, List.mem_append, not_or]

theorem slashless_join {words : List String} (h : ∀ w ∈ words, Slashless w) :
    Slashless (String.join words) := by
  induction words with
  | nil => exact List.not_mem_nil
  | cons w words ih =>
    rw [List.forall_mem_cons] at h
    rw [String.join_cons, slashless_append]
    exact ⟨h.1, ih h.2⟩

theorem slashless_concat {words : List String} {w : String} (h : ∀ v ∈ words, Slashless v)
    (hw : Slashless w) : ∀ v ∈ words ++ [w], Slashless v :=
  List.forall_mem_append.2 ⟨h, List.forall_mem_singleton.2 hw⟩

namespace Parts

variable {p other q : Parts}

theorem slashless_empty : Slashless {} :=
  ⟨List.not_mem_nil, nofun, nofun, nofun, nofun⟩

/-- The name of parts without a backslash has none. -/
theorem Slashless.name (h : p.Slashless) : MathMarkup.Slashless p.name := by
  have hwords : ∀ {words : List String} {mark : String}, (∀ w ∈ words, MathMarkup.Slashless w) →
      MathMarkup.Slashless mark →
        MathMarkup.Slashless (String.join (words.map (mark ++ ·))) := by
    intro words mark hw hm
    refine slashless_join ?_
    rw [List.forall_mem_map]
    exact fun w hmem => slashless_append.2 ⟨hm, hw w hmem⟩
  rw [Parts.name, slashless_append, slashless_append, slashless_append]
  refine ⟨⟨⟨h.base, hwords ?_ (by decide)⟩, hwords h.above (by decide)⟩,
    hwords h.below (by decide)⟩
  exact List.forall_mem_append.2 ⟨h.accents, h.typefaces⟩

theorem Slashless.pushBase? (h : p.Slashless) {text : String} (ht : MathMarkup.Slashless text)
    (hq : p.pushBase? text = some q) : q.Slashless := by
  unfold Parts.pushBase? at hq
  split at hq
  · rw [← Option.some.inj hq]
    exact { h with base := slashless_append.2 ⟨h.base, ht⟩ }
  · cases hq

/-- Merging brings in no backslash. -/
theorem Slashless.merge? (h : p.Slashless) (ho : other.Slashless)
    (hq : p.merge? other = some q) : q.Slashless := by
  unfold Parts.merge? at hq
  split at hq
  · rw [← Option.some.inj hq]
    exact ho
  · split at hq
    · exact h.pushBase? ho.base hq
    · cases hq

theorem Slashless.accented (h : p.Slashless) {accent : String} (ha : MathMarkup.Slashless accent) :
    Slashless { p with accents := p.accents ++ [accent] } :=
  { h with accents := slashless_concat h.accents ha }

end Parts

/-! ## Bodies -/

/-- A command, or a token without backslashes. -/
def Legible (t : Token) : Prop :=
  t.kind = .command ∨ Slashless t.raw

theorem slashless_of_verbatim? {ts : List Token} (ht : ∀ t ∈ ts, Legible t) {p : Parts}
    (h : verbatim? ts = some p) : p.Slashless := by
  obtain ⟨texts, hmap, rfl⟩ := Option.map_eq_some_iff.1 h
  refine { Parts.slashless_empty with base := slashless_join fun text hm => ?_ }
  have hmem := List.mem_map_of_mem (f := some) hm
  rw [← mapM_eq_some_iff.1 hmap] at hmem
  obtain ⟨t, htoken, htext⟩ := List.mem_map.1 hmem
  split at htext
  next =>
    obtain ⟨c, hc, rfl⟩ := Option.map_eq_some_iff.1 htext
    exact slashless_of_unescape? hc
  next hk =>
    rw [← Option.some.inj htext]
    exact (ht t htoken).resolve_left hk

/-- A typeface brings in no backslash. -/
theorem slashless_of_styled? {command : String} {ts : List Token} (ht : ∀ t ∈ ts, Legible t)
    {body : Option Parts} (hb : ∀ p ∈ body, p.Slashless) {q : Parts}
    (h : styled? command ts body = some q) : q.Slashless := by
  rw [styled?_eq] at h
  obtain ⟨read, hread, h⟩ := Option.bind_eq_some_iff.1 h
  have hr : read.Slashless := by
    rcases body_or_verbatim_of_contents? hread with hread | hread
    · exact hb read hread
    · exact slashless_of_verbatim? ht hread
  split at h
  next =>
    rw [← Option.some.inj h]
    exact hr
  next face hface =>
    split at h
    · rw [← Option.some.inj h]
      exact hr
    · -- a digit becomes the word for it, and the typeface is added
      dsimp only at h
      rw [← Option.some.inj h]
      have hfaces := slashless_concat hr.typefaces (slashless_typeface hface)
      split
      next d hd =>
        have hword := slashless_digitWord (List.mem_of_find?_eq_some hd)
        exact { hr with base := hword, typefaces := hfaces }
      next => exact { hr with typefaces := hfaces }

/-- A piece between commas has tokens of the list that is cut. -/
theorem subset_of_mem_splitCommas {depth : Nat} {ts piece : List Token}
    (h : piece ∈ splitCommas depth ts) : piece ⊆ ts := by
  induction ts generalizing depth piece with
  | nil =>
    rw [splitCommas, List.mem_singleton] at h
    rw [h]
    exact List.Subset.refl _
  | cons t ts ih =>
    -- a comma begins a new piece, any other token is put into the first one
    rcases splitCommas_cons depth t ts with ⟨-, hsplit⟩ | ⟨d, hsplit⟩
    · rw [hsplit] at h
      rcases List.mem_cons.1 h with rfl | h
      · exact List.nil_subset _
      · exact List.subset_cons_of_subset t (ih h)
    · rw [hsplit] at h
      cases hpieces : splitCommas d ts with
      | nil => exact absurd hpieces (splitCommas_ne_nil d ts)
      | cons first pieces =>
        rw [hpieces] at h
        rcases List.mem_cons.1 h with rfl | h
        · exact List.cons_subset_cons t (ih (by rw [hpieces]; exact List.mem_cons_self))
        · exact List.subset_cons_of_subset t
            (ih (by rw [hpieces]; exact List.mem_cons_of_mem _ h))

/-- What holds of each piece between commas holds of the names in a script. -/
theorem forall_mem_of_names? {inner : List Token} {names : List String}
    (h : names? inner = some names) {P : String → Prop}
    (hp : ∀ piece ∈ splitCommas 0 inner, ∀ q, body? {} piece = some q → P q.name) :
    ∀ name ∈ names, P name := by
  intro name hm
  have hmem := List.mem_map_of_mem (f := some) hm
  rw [← mapM_eq_some_iff.1 h] at hmem
  obtain ⟨piece, hpiece, hname⟩ := List.mem_map.1 hmem
  obtain ⟨q, hq, rfl⟩ := Option.map_eq_some_iff.1 hname
  exact hp piece hpiece q hq

theorem slashless_primeName? {inner : List Token} {accent : String}
    (h : primeName? inner = some accent) : Slashless accent := by
  unfold primeName? at h
  repeat' split at h
  · rw [← Option.some.inj h]
    decide
  · rw [← Option.some.inj h]
    decide
  · cases h
  · cases h

/-- A move on legible tokens adds no backslash to the parts, if the bodies that it reads have
none. -/
theorem BodyMove.slashless {parts p : Parts} {t : Token} {ts rest : List Token}
    (h : BodyMove parts (t :: ts) p rest) (hp : parts.Slashless) (ht : ∀ u ∈ t :: ts, Legible u)
    (hinner : ∀ inner other, inner.length ≤ ts.length → inner ⊆ ts →
      body? {} inner = some other → other.Slashless) : p.Slashless := by
  have hargument : ∀ {inner : List Token}, argument? ts = some (inner, rest) →
      inner.length ≤ ts.length ∧ inner ⊆ ts := by
    intro inner ha
    have hlen := length_argument? ha
    exact ⟨by omega, (argument?_eq_some ha).1⟩
  -- the names in an argument are bodies of its pieces, which are shorter than what is left
  have hnames : ∀ {inner : List Token} {names : List String},
      argument? ts = some (inner, rest) → names? inner = some names → ∀ w ∈ names, Slashless w := by
    intro inner names ha hn
    obtain ⟨hlen, hsub⟩ := hargument ha
    refine forall_mem_of_names? hn fun piece hpiece r hr => ?_
    exact (hinner piece r (Nat.le_trans (length_mem_splitCommas hpiece) hlen)
      (List.Subset.trans (subset_of_mem_splitCommas hpiece) hsub) hr).name
  cases h with
  | raw hk hpush => exact hp.pushBase? ((ht t List.mem_cons_self).resolve_left hk) hpush
  | symbol hs hpush => exact hp.pushBase? (slashless_symbol (List.mem_of_find?_eq_some hs)) hpush
  | escaped hc hpush => exact hp.pushBase? (slashless_of_unescape? hc) hpush
  | degree => exact hp.accented (by decide)
  | @group _ _ inner _ other _ hg ho hmerge =>
    have hlen := length_group? hg
    obtain ⟨opening, close, -, -, htokens⟩ := group?_eq_some hg
    rw [List.length_cons] at hlen
    refine hp.merge? (hinner inner other (by omega) ?_ ho) hmerge
    rw [(List.cons.inj htokens).2]
    exact List.subset_append_left _ _
  | accent hc ha ho hmerge =>
    obtain ⟨hlen, hsub⟩ := hargument ha
    exact hp.merge? ((hinner _ _ hlen hsub ho).accented (slashless_accent hc)) hmerge
  | typeface hg ho hmerge =>
    obtain ⟨hlen, hsub⟩ := hargument (argument?_of_group? hg)
    refine hp.merge? (slashless_of_styled? ?_ (fun r hr => hinner _ r hlen hsub hr) ho) hmerge
    exact fun u hu => ht u (List.mem_cons_of_mem t (hsub hu))
  | below ha hn =>
    exact { hp with below := List.forall_mem_append.2 ⟨hp.below, hnames ha hn⟩ }
  | above ha hn =>
    exact { hp with above := List.forall_mem_append.2 ⟨hp.above, hnames ha hn⟩ }
  | primed _ hprime => exact hp.accented (slashless_primeName? hprime)

/-- What is read off legible tokens has no backslash. -/
theorem slashless_of_body? {parts q : Parts} (hp : parts.Slashless) {ts : List Token}
    (ht : ∀ t ∈ ts, Legible t) (h : body? parts ts = some q) : q.Slashless := by
  refine @body?_moves (fun parts ts q => parts.Slashless → (∀ t ∈ ts, Legible t) → q.Slashless)
    (fun p hp _ => hp) ?_ _ _ _ h hp ht
  intro parts p q t ts rest _ hmove hrest hinner hp ht
  have hlegible : ∀ us ⊆ ts, ∀ u ∈ us, Legible u :=
    fun us hsub u hu => ht u (List.mem_cons_of_mem t (hsub hu))
  refine hrest ?_ (hlegible rest hmove.rest_suffix.subset)
  exact hmove.slashless hp ht fun inner other hlen hsub ho =>
    hinner inner other hlen ho Parts.slashless_empty (hlegible inner hsub)

end Name

/-! ## Where verbatim texts stand -/

namespace Token

open MathMarkup.Lexer

/-- Only commands have backslashes, and texts right behind a text command and its brace. -/
def Led : Mode → List Token → Prop
  | _, [] => True
  | mode, t :: ts =>
    (Name.Legible t ∨ t.kind = .text ∧ mode = .textOpen) ∧ Led (modeAfter mode t) ts

theorem modeAfter_math {t : Token} (h : ¬ (t.kind = .command ∧ t.raw ∈ textCommands)) :
    modeAfter .math t = .math := by
  rw [modeAfter, if_neg h, if_neg (fun hm => by cases hm.1)]

/-- Nothing is asked of tokens that are read on their own that is not asked behind others. -/
theorem Led.of_math {ts : List Token} (h : Led .math ts) (mode : Mode) : Led mode ts := by
  induction ts generalizing mode with
  | nil => trivial
  | cons t ts ih =>
    refine ⟨Or.inl (h.1.resolve_right fun htext => by cases htext.2), ?_⟩
    by_cases ht : t.kind = .command ∧ t.raw ∈ textCommands
    · have hmode : modeAfter mode t = modeAfter .math t := by
        rw [modeAfter, modeAfter, if_pos ht, if_pos ht]
      rw [hmode]
      exact h.2
    · have htail := h.2
      rw [modeAfter_math ht] at htail
      exact ih htail _

/-- A prefix in front leaves what follows led. -/
theorem Led.append {mode : Mode} {left right : List Token} (h : Led mode (left ++ right)) :
    Led (left.foldl modeAfter mode) right := by
  induction left generalizing mode with
  | nil => exact h
  | cons t left ih => exact ih h.2

/-- Where no text is meant, only commands have backslashes. -/
theorem Shaped.legible {t : Token} {rest : List Char} (h : t.Shaped rest) (hk : t.kind ≠ .text) :
    Name.Legible t := by
  obtain ⟨raw, kind⟩ := t
  -- no other kind of token has a backslash in its shape
  cases kind with
  | command => exact Or.inl rfl
  | number =>
    refine Or.inr fun hm => ?_
    rcases h.chars _ hm with hc | hc
    · exact absurd hc (by decide)
    · exact absurd hc (by decide)
  | text => exact absurd rfl hk
  | openGroup =>
    obtain rfl : raw = "\x7b" := h
    exact Or.inr (by decide)
  | closeGroup =>
    obtain rfl : raw = "\x7d" := h
    exact Or.inr (by decide)
  | char =>
    obtain ⟨c, hraw, hc⟩ := h
    refine Or.inr fun hm => ?_
    rw [hraw, List.mem_singleton] at hm
    exact hc.special (by rw [← hm]; decide)

/-- The tokens of a formula are legible, and lead from one to the next. -/
theorem led_modeAfter_mathToken? {mode mode' : Mode} {cs rest : List Char} {t : Token}
    (h : mathToken? mode cs = some (t, mode', rest)) :
    Name.Legible t ∧ modeAfter mode t = mode' := by
  obtain ⟨rfl, hk, hshape, -⟩ := mathToken?_eq_some_iff.1 h
  exact ⟨hshape.legible hk, rfl⟩

/-- The tokens of some markup. -/
theorem led_scanFrom (mode : Mode) (cs : List Char) : Led mode (scanFrom mode cs) := by
  fun_induction scanFrom mode cs with
  | case1 => trivial
  | case2 mode cs t mode' rest hnext ih =>
    unfold next? at hnext
    split at hnext
    next hopen =>
      split at hnext
      · -- no text comes between the braces
        obtain ⟨hlegible, hmode⟩ := led_modeAfter_mathToken? hnext
        refine ⟨Or.inl hlegible, ?_⟩
        have hsame : modeAfter mode t = modeAfter .math t := by
          rw [modeAfter, modeAfter, hopen]
          simp
        rw [hsame, hmode]
        exact ih
      · -- text is only met where a text command was just opened
        obtain ⟨rfl, hmode⟩ := Prod.mk.inj (Option.some.inj hnext)
        obtain ⟨rfl, -⟩ := Prod.mk.inj hmode
        refine ⟨Or.inr ⟨rfl, hopen⟩, ?_⟩
        have hmode : ∀ raw : String, modeAfter mode ⟨raw, .text⟩ = .math := by
          intro raw
          rw [modeAfter, if_neg (by simp), if_neg (by simp)]
        rw [hmode]
        exact ih
    next =>
      obtain ⟨hlegible, hmode⟩ := led_modeAfter_mathToken? hnext
      refine ⟨Or.inl hlegible, ?_⟩
      rw [hmode]
      exact ih

/-- Dropped tokens are in no one's way. -/
theorem Led.dropSpacing {mode : Mode} {ts : List Token} (h : Led mode ts) (last : Option Token) :
    Led mode (Parser.dropSpacing last ts) := by
  induction ts generalizing mode last with
  | nil => trivial
  | cons t ts ih =>
    unfold Parser.dropSpacing
    split
    next hdrop =>
      have hspacing : t.raw ∈ Parser.spacing :=
        List.contains_iff_mem.1 (Bool.and_eq_true_iff.1 hdrop).1
      have hother : ∀ w ∈ Parser.spacing, w ∉ textCommands ∧ w ≠ "\x7b" := by decide
      have hmode : modeAfter mode t = .math := by
        rw [modeAfter, if_neg (fun ht => (hother _ hspacing).1 ht.2),
          if_neg (fun ht => (hother _ hspacing).2 (by rw [ht.2]))]
      have htail := h.2
      rw [hmode] at htail
      exact (ih htail last).of_math mode
    next => exact ⟨h.1, ih h.2 (some t)⟩

/-- A number that is cut in two. -/
theorem Led.splits {mode : Mode} {ts us : List Token} (h : Led mode ts) (hs : Splits ts us) :
    Led mode us := by
  induction hs with
  | refl => exact h
  | tail hprev hs ih =>
    obtain ⟨left, right, first, rest, hf, hr, rfl, rfl⟩ := hs
    have hmode : ∀ (mode : Mode) (raw : String), modeAfter mode ⟨raw, .number⟩ = .math := by
      intro mode raw
      rw [modeAfter, if_neg (by simp), if_neg (by simp)]
    clear hprev hf hr h
    -- on the tokens before the number, as the mode at the number hangs on them
    induction left generalizing mode with
    | nil =>
      obtain ⟨hnumber, hright⟩ := ih
      have hraw : Slashless (first ++ rest) := by
        rcases hnumber with (hk | hraw) | ⟨hk, -⟩
        · cases hk
        · exact hraw
        · cases hk
      rw [Name.slashless_append] at hraw
      rw [hmode] at hright
      refine ⟨Or.inl (Or.inr hraw.1), Or.inl (Or.inr hraw.2), ?_⟩
      rw [hmode]
      exact hright
    | cons t left ihl => exact ⟨ih.1, ihl ih.2⟩

/-- Up to a text command everything is legible. -/
theorem Led.legible {inner after : List Token} (h : Led .math (inner ++ after))
    (ht : ∀ t ∈ inner, ¬ (t.kind = .command ∧ t.raw ∈ textCommands)) :
    ∀ t ∈ inner, Name.Legible t := by
  induction inner with
  | nil => exact nofun
  | cons t inner ih =>
    rw [List.forall_mem_cons] at ht
    obtain ⟨hfirst, hrest⟩ := h
    rw [modeAfter_math ht.1] at hrest
    have hlegible := hfirst.resolve_right fun htext => by cases htext.2
    exact List.forall_mem_cons.2 ⟨hlegible, ih hrest ht.2⟩

end Token

/-! ## Names in a parse -/

namespace Name

theorem wordless_textCommands : ∀ w ∈ Token.textCommands, Wordless w := by
  intro w hw
  have hall : ∀ w ∈ Token.textCommands, w ≠ "\\degree" ∧ primeName? [⟨w, .command⟩] = none ∧
      accentOfCommand? w = none ∧ isTypeface w = false ∧ symbolOfCommand? w = none ∧
      unescape? w = none := by
    decide +kernel
  obtain ⟨hdegree, hprime, haccent, htypeface, hsymbol, hescape⟩ := hall w hw
  exact ⟨hdegree, hprime, haccent, htypeface, hsymbol, hescape⟩

/-- The argument of a command comes right behind it, or behind an opening brace. -/
theorem led_of_argument? {ts inner rest : List Token} (h : argument? ts = some (inner, rest))
    (hl : Token.Led .math ts) : ∃ after, Token.Led .math (inner ++ after) := by
  cases ts with
  | nil => cases h
  | cons t ts =>
    unfold argument? at h
    dsimp only at h
    split at h
    next hk =>
      obtain ⟨close, -, rfl⟩ := splitClose?_eq_some h
      have hinner := hl.2
      rw [Token.modeAfter_math (by rw [hk]; nofun)] at hinner
      exact ⟨_, hinner⟩
    next => cases h
    next =>
      obtain ⟨rfl, rfl⟩ := Prod.mk.inj (Option.some.inj h)
      exact ⟨_, hl⟩

/-- A character names itself or has a name without a backslash. -/
theorem slashless_of_charName? {raw name : String} (hr : Slashless raw)
    (h : charName? raw = some name) : Slashless name := by
  unfold charName? at h
  split at h
  · cases h
  · split at h
    · rw [← Option.some.inj h]
      exact hr
    · split at h
      · rw [← Option.some.inj h]
        split
        · exact slashless_symbol (List.mem_of_find?_eq_some ‹_›)
        · exact hr
      · cases h

/-- The argument of a command that is no text command, if it holds no text command. -/
theorem legible_of_argument? {mode : Lexer.Mode} {t : Token} {ts inner rest : List Token}
    (hl : Token.Led mode (t :: ts)) (hk : t.kind = .command) (ht : t.raw ∉ Token.textCommands)
    (h : argument? ts = some (inner, rest))
    (hi : ∀ w ∈ Token.textCommands, (⟨w, .command⟩ : Token) ∉ inner) : ∀ u ∈ inner, Legible u := by
  have hmode : Token.modeAfter mode t = .math := by
    rw [Token.modeAfter, if_neg (fun htext => ht htext.2), if_neg (fun hopen => ?_)]
    rw [hopen.2] at hk
    cases hk
  have hts := hl.2
  rw [hmode] at hts
  obtain ⟨after, hinner⟩ := led_of_argument? h hts
  refine hinner.legible fun u hu htext => hi u.raw htext.2 ?_
  rw [← htext.1]
  exact hu

/-- What is read off tokens where texts are led has no backslash. -/
theorem slashless_of_readIdentifier? {mode : Lexer.Mode} {ts rest : List Token} {name : String}
    (hl : Token.Led mode ts) (h : readIdentifier? ts = some (name, rest)) : Slashless name := by
  cases ts with
  | nil => cases h
  | cons t ts =>
    cases readsOff_of_readIdentifier? h with
    | char hk hc =>
      refine slashless_of_charName? ?_ hc
      rcases hl.1 with (hcommand | hraw) | ⟨htext, -⟩
      · cases hk.symm.trans hcommand
      · exact hraw
      · cases hk.symm.trans htext
    | symbol _ hs => exact slashless_symbol (List.mem_of_find?_eq_some hs)
    | accent hk ha harg hb =>
      -- an argument with a text command in it could not be read, so there is no verbatim text in it
      have hcommand : t.raw ∉ Token.textCommands := by
        intro hm
        rw [(wordless_textCommands _ hm).accent] at ha
        cases ha
      have hlegible := legible_of_argument? hl hk hcommand harg fun w hw =>
        not_mem_of_body? (wordless_textCommands w hw) hb
      have hparts := slashless_of_body? Parts.slashless_empty hlegible hb
      exact (hparts.accented (slashless_accent ha)).name
    | typeface hk hf hg hs =>
      have hcommand : t.raw ∉ Token.textCommands := by
        intro hm
        rw [(wordless_textCommands _ hm).typeface] at hf
        cases hf
      have hlegible := legible_of_argument? hl hk hcommand (argument?_of_group? hg) fun w hw =>
        not_mem_of_styled? (wordless_textCommands w hw) hs fun _ =>
          not_mem_of_body? (wordless_textCommands w hw)
      have hparts := slashless_of_styled? hlegible
        (fun p hp => slashless_of_body? Parts.slashless_empty hlegible hp) hs
      exact hparts.name

end Name

namespace Parser

/-- Wherever a parse of some markup is, texts are led. -/
theorem led_of_place {markup : String} {here : List Token}
    (h : Token.Place (ofTokens (Token.scan markup)).tokens here) :
    ∃ mode, Token.Led mode here := by
  obtain ⟨ts, hs, before, rfl⟩ := h
  have hscan := (Token.led_scanFrom .math markup.toList).dropSpacing none
  exact ⟨_, (hscan.splits hs).append⟩

/-- No name that is read off some markup in a parse has a backslash. -/
theorem slashless_of_calls {markup : String} {here : List Token}
    (hp : Token.Place (ofTokens (Token.scan markup)).tokens here) {name : String}
    (h : Calls here name) : Slashless name := by
  obtain ⟨mode, hl⟩ := led_of_place hp
  cases h with
  | symbol h =>
    obtain ⟨rest, hr⟩ := readIdentifier?_of_identifier? h
    exact Name.slashless_of_readIdentifier? hl hr
  | @function read _ h =>
    obtain ⟨rest, hr⟩ := readIdentifier?_of_identifier? h
    have hread := Name.slashless_of_readIdentifier? hl hr
    rcases functionName_cases read with hsame | hdrop
    · rw [hsame]
      exact hread
    · rw [hdrop, Name.slashless_append] at hread
      exact hread.1

end Parser
end MathMarkup
