import Mathlib.Data.List.Forall2
import MathMarkup.Proofs.NameRoundTrip
import MathMarkup.Proofs.WireRoundTrip

/-!
# Names as they are read

Which names markup can give is decided by `readIdentifier?`. Most of what it reads is a letter or a
named symbol, but the argument of an accent or a typeface may hold anything. The question here is
when what is read is no bare name (`Expr.BareName`), so that it would be lost where bare names are
exchanged: when it is empty, or when it looks like a text in single quotes.

A body is read in steps (`BodyStep`), and two facts about a step carry over to whole bodies. A base
has an apostrophe only if a token does (`unquoted_body?`), and no part is left without any content
unless the body is nothing but braces (`braces_of_blank`).
-/

namespace MathMarkup

/-- Some token has an apostrophe in it. -/
abbrev Token.HasQuote (tokens : List Token) : Prop :=
  ∃ t ∈ tokens, '\'' ∈ t.raw.toList

/-- A token that adds nothing to a name: a brace, or a command that sets names upright. -/
def Token.IsHollow (t : Token) : Prop :=
  t.kind = .openGroup ∨ t.kind = .closeGroup ∨ t.kind = .command ∧ Name.isUpright t.raw = true

namespace Name

/-! ## Groups -/

/-- The contents of a group end at a closing brace. -/
theorem splitClose?_eq_some {depth : Nat} {ts inner rest : List Token}
    (h : splitClose? depth ts = some (inner, rest)) :
    ∃ close, close.kind = .closeGroup ∧ ts = inner ++ close :: rest := by
  induction ts generalizing depth inner rest with
  | nil => cases h
  | cons t ts ih =>
    -- whatever the token is, either it closes the group or it belongs to the contents
    have hcons : ∀ d, (splitClose? d ts).map (fun r => (t :: r.1, r.2)) = some (inner, rest) →
        ∃ close, close.kind = .closeGroup ∧ t :: ts = inner ++ close :: rest := by
      intro d hd
      obtain ⟨⟨i, r⟩, hr, heq⟩ := Option.map_eq_some_iff.1 hd
      obtain ⟨rfl, rfl⟩ := Prod.mk.inj heq
      obtain ⟨close, hk, rfl⟩ := ih hr
      exact ⟨close, hk, rfl⟩
    unfold splitClose? at h
    split at h
    next hk =>
      obtain ⟨rfl, rfl⟩ := Prod.mk.inj (Option.some.inj h)
      exact ⟨t, hk, rfl⟩
    next => exact hcons _ h
    next => exact hcons _ h
    next => exact hcons _ h

/-- A group stands between a token that opens it and one that closes it. -/
theorem group?_eq_some {ts inner rest : List Token} (h : group? ts = some (inner, rest)) :
    ∃ opening close, opening.kind = .openGroup ∧ close.kind = .closeGroup ∧
      ts = opening :: inner ++ close :: rest := by
  cases ts with
  | nil => cases h
  | cons t ts =>
    rw [group?] at h
    by_cases hk : t.kind = .openGroup
    · rw [if_pos hk] at h
      obtain ⟨close, hc, rfl⟩ := splitClose?_eq_some h
      exact ⟨t, close, hk, hc, rfl⟩
    · rw [if_neg hk] at h
      cases h

/-- The argument of a command is some of the tokens after it, and what is left is too. -/
theorem argument?_eq_some {ts inner rest : List Token} (h : argument? ts = some (inner, rest)) :
    inner ⊆ ts ∧ rest <:+ ts := by
  cases ts with
  | nil => cases h
  | cons t ts =>
    unfold argument? at h
    dsimp only at h
    split at h
    · obtain ⟨close, -, rfl⟩ := splitClose?_eq_some h
      refine ⟨fun u hu => ?_, t :: inner ++ [close], by simp⟩
      exact List.mem_cons_of_mem _ (List.mem_append_left _ hu)
    · cases h
    · obtain ⟨rfl, rfl⟩ := Prod.mk.inj (Option.some.inj h)
      refine ⟨fun u hu => ?_, List.suffix_cons _ _⟩
      rw [List.mem_singleton.1 hu]
      exact List.mem_cons_self

/-- A group is an argument. -/
theorem argument?_of_group? {ts : List Token} {r : List Token × List Token}
    (h : group? ts = some r) : argument? ts = some r := by
  cases ts with
  | nil => cases h
  | cons t ts =>
    rw [group?] at h
    by_cases hk : t.kind = .openGroup
    · rw [if_pos hk] at h
      unfold argument?
      simp only [hk]
      exact h
    · rw [if_neg hk] at h
      cases h

/-! ## Texts of single tokens -/

/-- What a token that is no brace may put behind a base: itself, the name of its symbol, or the
character that it escapes. -/
inductive Stands (t : Token) : String → Prop where
  | raw : Stands t t.raw
  | symbol {s : NamedSymbol} (h : symbolOfCommand? t.raw = some s) : Stands t s.name
  | escaped {c : Char} (h : unescape? t.raw = some c) : Stands t (String.ofList [c])

theorem namedSymbols_plain :
    namedSymbols.all (fun s => s.name != "" && !s.name.toList.contains '\'') = true := by
  decide +kernel

theorem plain_of_mem_namedSymbols {s : NamedSymbol} (h : s ∈ namedSymbols) :
    s.name ≠ "" ∧ '\'' ∉ s.name.toList := by
  have := List.all_eq_true.1 namedSymbols_plain s h
  rw [Bool.and_eq_true, bne_iff_ne, Bool.not_eq_true', ← Bool.not_eq_true,
    List.contains_iff_mem] at this
  exact this

theorem mem_of_unescape? {command : String} {c : Char} (h : unescape? command = some c) :
    c ∈ command.toList := by
  unfold unescape? at h
  split at h
  next d heq =>
    split at h
    · obtain rfl := Option.some.inj h
      rw [heq]
      simp
    · cases h
  next => cases h

/-- A token with a text stands for a text. -/
theorem Stands.ne_empty {t : Token} {text : String} (h : Stands t text) (ht : t.raw ≠ "") :
    text ≠ "" := by
  cases h with
  | raw => exact ht
  | symbol h => exact (plain_of_mem_namedSymbols (List.mem_of_find?_eq_some h)).1
  | escaped h => simp

theorem Stands.quote {t : Token} {text : String} (h : Stands t text) (hq : '\'' ∈ text.toList) :
    '\'' ∈ t.raw.toList := by
  cases h with
  | raw => exact hq
  | symbol h => exact absurd hq (plain_of_mem_namedSymbols (List.mem_of_find?_eq_some h)).2
  | escaped h =>
    rw [String.toList_ofList, List.mem_singleton] at hq
    rw [hq]
    exact mem_of_unescape? h

/-! ## Steps of a body -/

/-- One step in the reading of a body: what is read, the parts after it, and the tokens left. -/
inductive BodyStep (parts : Parts) : List Token → Parts → List Token → Prop where
  /-- A text extends the base. -/
  | push {t : Token} {ts : List Token} {text : String} {p : Parts} (ht : Stands t text)
      (hp : parts.pushBase? text = some p) : BodyStep parts (t :: ts) p ts
  /-- An accent or a script behind the base. -/
  | modify {t : Token} {ts rest : List Token} {p : Parts} (hr : rest <:+ ts)
      (hb : p.base = parts.base) (hm : p.isPlain = false) : BodyStep parts (t :: ts) p rest
  | group {t : Token} {ts inner rest : List Token} {other p : Parts}
      (hg : group? (t :: ts) = some (inner, rest)) (ho : body? {} inner = some other)
      (hp : parts.merge? other = some p) : BodyStep parts (t :: ts) p rest
  | accent {t : Token} {ts inner rest : List Token} {other p : Parts} (accent : String)
      (ha : argument? ts = some (inner, rest)) (ho : body? {} inner = some other)
      (hp : parts.merge? { other with accents := other.accents ++ [accent] } = some p) :
      BodyStep parts (t :: ts) p rest
  | typeface {t : Token} {ts inner rest : List Token} {other p : Parts} (hk : t.kind = .command)
      (hf : isTypeface t.raw = true) (hg : group? ts = some (inner, rest))
      (ho : styled? t.raw inner (body? {} inner) = some other)
      (hp : parts.merge? other = some p) : BodyStep parts (t :: ts) p rest

/-- A step takes tokens at the front. -/
theorem BodyStep.rest_suffix {parts p : Parts} {t : Token} {ts rest : List Token}
    (h : BodyStep parts (t :: ts) p rest) : rest <:+ ts := by
  cases h with
  | push => exact List.suffix_rfl
  | modify hr => exact hr
  | group hg =>
    obtain ⟨opening, close, -, -, htokens⟩ := group?_eq_some hg
    rw [(List.cons.inj htokens).2]
    exact (List.suffix_cons _ _).trans (List.suffix_append _ _)
  | accent _ ha => exact (argument?_eq_some ha).2
  | typeface _ _ hg => exact (argument?_eq_some (argument?_of_group? hg)).2

theorem isPlain_accented (p : Parts) (accent : String) :
    Parts.isPlain { p with accents := p.accents ++ [accent] } = false := by
  unfold Parts.isPlain
  simp

/-- A script lists at least one name. -/
theorem ne_nil_of_names? {inner : List Token} {names : List String}
    (h : names? inner = some names) : names ≠ [] := by
  rintro rfl
  exact splitCommas_ne_nil 0 inner (List.map_eq_nil_iff.1 (mapM_eq_some_iff.1 h))

theorem isPlain_below (p : Parts) {names : List String} (h : names ≠ []) :
    Parts.isPlain { p with below := p.below ++ names } = false := by
  unfold Parts.isPlain
  simp [h]

theorem isPlain_above (p : Parts) {names : List String} (h : names ≠ []) :
    Parts.isPlain { p with above := p.above ++ names } = false := by
  unfold Parts.isPlain
  simp [h]

/-- A body is read step by step. -/
theorem bodyStep_of_body? {parts q : Parts} {t : Token} {ts : List Token}
    (h : body? parts (t :: ts) = some q) :
    ∃ p rest, BodyStep parts (t :: ts) p rest ∧ body? p rest = some q := by
  have hpush : ∀ {text : String}, Stands t text →
      ((parts.pushBase? text).bind fun p => body? p ts) = some q →
      ∃ p rest, BodyStep parts (t :: ts) p rest ∧ body? p rest = some q := by
    intro text ht h
    obtain ⟨p, hp, h⟩ := Option.bind_eq_some_iff.1 h
    exact ⟨p, ts, .push ht hp, h⟩
  rw [body?_cons] at h
  -- the cases are those of the token: a closing brace, an opening one, a command, a character, and
  -- any other token, which extends the base
  split at h
  next => cases h
  next =>
    obtain ⟨⟨inner, rest⟩, hg, h⟩ := Option.bind_eq_some_iff.1 h
    obtain ⟨other, p, ho, hp, h⟩ := mergeThen_eq_some h
    exact ⟨p, rest, .group hg ho hp, h⟩
  next hk =>
    split at h
    · refine ⟨_, ts, ?_, h⟩
      exact .modify List.suffix_rfl rfl (isPlain_accented parts "deg")
    · split at h
      next =>
        obtain ⟨⟨inner, rest⟩, ha, h⟩ := Option.bind_eq_some_iff.1 h
        obtain ⟨accented, p, ho, hp, h⟩ := mergeThen_eq_some h
        obtain ⟨other, hother, rfl⟩ := Option.map_eq_some_iff.1 ho
        exact ⟨p, rest, .accent _ ha hother hp, h⟩
      next hf =>
        obtain ⟨⟨inner, rest⟩, hg, h⟩ := Option.bind_eq_some_iff.1 h
        obtain ⟨other, p, ho, hp, h⟩ := mergeThen_eq_some h
        exact ⟨p, rest, .typeface hk hf hg ho hp, h⟩
      next hs =>
        exact hpush (.symbol hs) h
      next =>
        obtain ⟨c, hc, h⟩ := Option.bind_eq_some_iff.1 h
        exact hpush (.escaped hc) h
  next =>
    split at h
    · -- below the base
      obtain ⟨⟨inner, rest⟩, ha, h⟩ := Option.bind_eq_some_iff.1 h
      obtain ⟨names, hn, h⟩ := Option.bind_eq_some_iff.1 h
      refine ⟨_, rest, ?_, h⟩
      exact .modify (argument?_eq_some ha).2 rfl (isPlain_below parts (ne_nil_of_names? hn))
    · split at h
      · -- above the base, where a prime is an accent
        obtain ⟨⟨inner, rest⟩, ha, h⟩ := Option.bind_eq_some_iff.1 h
        dsimp only at h
        split at h
        · refine ⟨_, rest, ?_, h⟩
          exact .modify (argument?_eq_some ha).2 rfl (isPlain_accented parts _)
        · obtain ⟨names, hn, h⟩ := Option.bind_eq_some_iff.1 h
          refine ⟨_, rest, ?_, h⟩
          exact .modify (argument?_eq_some ha).2 rfl (isPlain_above parts (ne_nil_of_names? hn))
      · exact hpush .raw h
  next => exact hpush .raw h

/-- What holds of a body holds of the bodies that it is made of: the rest behind its first token,
and those inside. The induction is on the number of tokens. -/
theorem body?_recursion {motive : Parts → List Token → Parts → Prop}
    (nil : ∀ p, motive p [] p)
    (cons : ∀ {parts q : Parts} {t : Token} {ts : List Token}, body? parts (t :: ts) = some q →
      (∀ p rest other, rest.length ≤ ts.length → body? p rest = some other →
        motive p rest other) → motive parts (t :: ts) q)
    {parts q : Parts} {tokens : List Token} (h : body? parts tokens = some q) :
    motive parts tokens q := by
  induction hn : tokens.length using Nat.strongRecOn generalizing parts q tokens with
  | ind n ih =>
    cases tokens with
    | nil =>
      rw [body?_nil] at h
      rw [Option.some.inj h]
      exact nil q
    | cons t ts =>
      refine cons h fun p rest other hle ho => ih rest.length ?_ ho rfl
      rw [← hn, List.length_cons]
      exact Nat.lt_succ_of_le hle

/-- What the steps keep holds of whole bodies, the contents of groups among them. -/
theorem body?_induction {motive : Parts → List Token → Parts → Prop}
    (nil : ∀ p, motive p [] p)
    (step : ∀ {parts p q : Parts} {t : Token} {ts rest : List Token},
      BodyStep parts (t :: ts) p rest → body? p rest = some q → motive p rest q →
      (∀ inner other, inner.length < (t :: ts).length → body? {} inner = some other →
        motive {} inner other) → motive parts (t :: ts) q)
    {parts q : Parts} {tokens : List Token} (h : body? parts tokens = some q) :
    motive parts tokens q := by
  refine body?_recursion nil (fun {parts q t ts} hq ih => ?_) h
  obtain ⟨p, rest, hs, hr⟩ := bodyStep_of_body? hq
  exact step hs hr (ih p rest q hs.rest_suffix.length_le hr) fun inner other hlt ho =>
    ih {} inner other (Nat.le_of_lt_succ hlt) ho

/-! ## Parts -/

/-- Text is put behind the base, as long as the name has no marks yet. -/
theorem pushBase?_eq_some {p q : Parts} {text : String} (h : p.pushBase? text = some q) :
    p.isPlain = true ∧ q.base = p.base ++ text := by
  unfold Parts.pushBase? at h
  by_cases hp : p.isPlain = true
  · rw [if_pos hp] at h
    refine ⟨hp, ?_⟩
    rw [← Option.some.inj h]
  · rw [if_neg hp] at h
    cases h

/-- The parts of a group start a body, or its base extends the one before. -/
theorem merge?_eq_some {p other q : Parts} (h : p.merge? other = some q) :
    p.isPlain = true ∧
      (p.base = "" ∧ q = other ∨ other.isPlain = true ∧ q.base = p.base ++ other.base) := by
  unfold Parts.merge? at h
  split at h
  next hp =>
    rw [Bool.and_eq_true, String.isEmpty_iff] at hp
    exact ⟨hp.2, Or.inl ⟨hp.1, (Option.some.inj h).symm⟩⟩
  next =>
    split at h
    · have hpush := pushBase?_eq_some h
      exact ⟨hpush.1, Or.inr ⟨‹_›, hpush.2⟩⟩
    · cases h

/-- The parts of no name at all. -/
structure Parts.Blank (p : Parts) : Prop where
  base : p.base = ""
  plain : p.isPlain = true

/-- Nothing comes only of merging nothing with nothing. -/
theorem Parts.Blank.of_merge? {p other q : Parts} (hq : q.Blank) (h : p.merge? other = some q) :
    p.Blank ∧ other.Blank := by
  obtain ⟨hp, ⟨hb, rfl⟩ | ⟨ho, hb⟩⟩ := merge?_eq_some h
  · exact ⟨⟨hb, hp⟩, hq⟩
  · rw [hq.base] at hb
    obtain ⟨hpb, hob⟩ := String.append_eq_empty_iff.1 hb.symm
    exact ⟨⟨hpb, hp⟩, hob, ho⟩

theorem quote_of_merge? {p other q : Parts} (h : p.merge? other = some q)
    (hq : '\'' ∈ q.base.toList) : '\'' ∈ p.base.toList ∨ '\'' ∈ other.base.toList := by
  obtain ⟨-, ⟨-, rfl⟩ | ⟨-, hb⟩⟩ := merge?_eq_some h
  · exact Or.inr hq
  · rw [hb, String.toList_append, List.mem_append] at hq
    exact hq

/-- A verbatim text is what its tokens stand for, one after the other. -/
theorem verbatim?_eq_some {tokens : List Token} {p : Parts} (h : verbatim? tokens = some p) :
    ∃ texts, List.Forall₂ Stands tokens texts ∧ p = { base := String.join texts } := by
  obtain ⟨texts, ht, rfl⟩ := Option.map_eq_some_iff.1 h
  refine ⟨texts, ?_, rfl⟩
  have hall := mapM_eq_some_iff.1 ht
  rw [← List.forall₂_eq_eq_eq, List.forall₂_map_left_iff, List.forall₂_map_right_iff] at hall
  refine hall.imp fun t text htext => ?_
  split at htext
  · obtain ⟨c, hc, rfl⟩ := Option.map_eq_some_iff.1 htext
    exact .escaped hc
  · rw [← Option.some.inj htext]
    exact .raw

/-- What the contents of a typeface command say before the typeface is added. -/
def contents? (command : String) (inner : List Token) (body : Option Parts) : Option Parts :=
  if isUpright command then body.or (verbatim? inner) else body

/-- Contents are what they say as a body, or the text as it stands. -/
theorem body_or_verbatim_of_contents? {command : String} {inner : List Token}
    {body : Option Parts} {read : Parts} (h : contents? command inner body = some read) :
    body = some read ∨ verbatim? inner = some read := by
  unfold contents? at h
  split at h
  · exact (Option.or_eq_some_iff.1 h).imp_right And.right
  · exact Or.inl h

/-- What a typeface makes of its contents. -/
theorem styled?_eq (command : String) (inner : List Token) (body : Option Parts) :
    styled? command inner body = (contents? command inner body).bind fun parts =>
      match typefaceOfCommand? command with
      | none => some parts
      | some face =>
        if face.name == "upright" &&
            (1 < Token.countUnits inner || parts.base.toList.head? == some '_') then some parts
        else
          let word := digitWords.find? fun d => parts.isPlain && d.2 == parts.base
          let parts := match word with
            | some d => { parts with base := d.1 }
            | none => parts
          some { parts with typefaces := parts.typefaces ++ [face.name] } := by
  unfold styled? contents?
  cases isUpright command <;> cases body <;> rfl

theorem isUpright_of_face {command : String} {face : Typeface}
    (h : typefaceOfCommand? command = some face) (hn : face.name = "upright") :
    isUpright command = true := by
  have hsole : typefaces.all (fun t => t.name != "upright" || isUpright t.command) = true := by
    decide
  have hface := List.all_eq_true.1 hsole face (List.mem_of_find?_eq_some h)
  have hcommand := List.find?_some h
  rw [hn, bne_self_eq_false, Bool.false_or, beq_iff_eq.1 hcommand] at hface
  exact hface

/-- Only a command that sets names upright may add nothing to what its contents say. Any other one
adds its typeface, and a lone digit becomes its word. -/
theorem styled?_eq_some {command : String} {inner : List Token} {body : Option Parts}
    {parts : Parts} (h : styled? command inner body = some parts) :
    ∃ read, contents? command inner body = some read ∧
      ((isTypeface command = true → isUpright command = true) ∧ parts = read ∨
        parts.isPlain = false ∧ (parts.base = read.base ∨ ∃ d ∈ digitWords, parts.base = d.1)) := by
  rw [styled?_eq] at h
  obtain ⟨read, hread, h⟩ := Option.bind_eq_some_iff.1 h
  refine ⟨read, hread, ?_⟩
  split at h
  next hnone =>
    refine Or.inl ⟨fun hf => ?_, (Option.some.inj h).symm⟩
    rw [isTypeface, hnone, Option.isSome_none, Bool.or_false] at hf
    rw [isUpright, hf, Bool.or_true]
  next face hface =>
    -- the typeface is added, unless it is upright and not needed to tell the name apart
    split at h
    next hc =>
      refine Or.inl ⟨fun _ => ?_, (Option.some.inj h).symm⟩
      exact isUpright_of_face hface (beq_iff_eq.1 (Bool.and_eq_true_iff.1 hc).1)
    next =>
      refine Or.inr ?_
      rw [← Option.some.inj h]
      refine ⟨by simp [Parts.isPlain], ?_⟩
      split
      · exact Or.inr ⟨_, List.mem_of_find?_eq_some ‹_›, rfl⟩
      · exact Or.inl rfl

/-! ## Apostrophes -/

theorem quote_of_contents? {command : String} {inner : List Token} {read : Parts}
    (h : contents? command inner (body? {} inner) = some read)
    (hbody : ∀ p, body? {} inner = some p → '\'' ∈ p.base.toList → Token.HasQuote inner)
    (hq : '\'' ∈ read.base.toList) : Token.HasQuote inner := by
  have hverbatim : verbatim? inner = some read → Token.HasQuote inner := by
    intro hv
    obtain ⟨texts, htexts, rfl⟩ := verbatim?_eq_some hv
    rw [show ({ base := String.join texts } : Parts).base = String.join texts from rfl] at hq
    clear h hbody hv
    -- on the texts of the tokens, one of which has the apostrophe
    induction htexts with
    | nil => exact absurd hq (by decide)
    | @cons t text ts texts ht _ ih =>
      rw [String.join_cons, String.toList_append, List.mem_append] at hq
      rcases hq with hq | hq
      · exact ⟨t, List.mem_cons_self, ht.quote hq⟩
      · obtain ⟨u, hu, hquote⟩ := ih hq
        exact ⟨u, List.mem_cons_of_mem t hu, hquote⟩
  rcases body_or_verbatim_of_contents? h with hp | hv
  · exact hbody read hp hq
  · exact hverbatim hv

theorem digitWords_unquoted : digitWords.all (fun d => !d.1.toList.contains '\'') = true := by
  decide

theorem quote_of_styled? {command : String} {inner : List Token} {parts : Parts}
    (h : styled? command inner (body? {} inner) = some parts)
    (hbody : ∀ p, body? {} inner = some p → '\'' ∈ p.base.toList → Token.HasQuote inner)
    (hq : '\'' ∈ parts.base.toList) : Token.HasQuote inner := by
  obtain ⟨read, hread, ⟨-, rfl⟩ | ⟨-, hb | ⟨d, hd, hb⟩⟩⟩ := styled?_eq_some h
  · exact quote_of_contents? hread hbody hq
  · rw [hb] at hq
    exact quote_of_contents? hread hbody hq
  · have := List.all_eq_true.1 digitWords_unquoted d hd
    rw [hb] at hq
    rw [List.contains_iff_mem.2 hq] at this
    exact absurd this Bool.false_ne_true

/-- What one step does to an apostrophe, given what the bodies inside of it do. -/
theorem BodyStep.quote {parts p : Parts} {t : Token} {ts rest : List Token}
    (h : BodyStep parts (t :: ts) p rest)
    (hinner : ∀ inner other, inner.length < (t :: ts).length → body? {} inner = some other →
      '\'' ∈ other.base.toList → Token.HasQuote inner)
    (hq : '\'' ∈ p.base.toList) : '\'' ∈ parts.base.toList ∨ Token.HasQuote (t :: ts) := by
  have hmono : ∀ {inner : List Token}, inner ⊆ t :: ts → Token.HasQuote inner →
      Token.HasQuote (t :: ts) := fun hs ⟨u, hu, hquote⟩ => ⟨u, hs hu, hquote⟩
  -- an apostrophe comes from the token of the step or from the body that it reads
  cases h with
  | push ht hp =>
    rw [(pushBase?_eq_some hp).2, String.toList_append, List.mem_append] at hq
    exact hq.imp id fun hq => ⟨t, List.mem_cons_self, ht.quote hq⟩
  | modify _ hb =>
    rw [hb] at hq
    exact Or.inl hq
  | group hg ho hp =>
    have hlt := length_group? hg
    refine (quote_of_merge? hp hq).imp id fun hq => ?_
    refine hmono (argument?_eq_some (argument?_of_group? hg)).1 ?_
    exact hinner _ _ (by omega) ho hq
  | accent _ ha ho hp =>
    have hle := length_argument? ha
    refine (quote_of_merge? hp hq).imp id fun hq => ?_
    refine hmono (fun u hu => List.mem_cons_of_mem t ((argument?_eq_some ha).1 hu)) ?_
    exact hinner _ _ (by rw [List.length_cons]; omega) ho hq
  | typeface _ _ hg ho hp =>
    have hlt := length_group? hg
    refine (quote_of_merge? hp hq).imp id fun hq => ?_
    refine hmono (fun u hu =>
      List.mem_cons_of_mem t ((argument?_eq_some (argument?_of_group? hg)).1 hu)) ?_
    refine quote_of_styled? ho (fun p hb => hinner _ p ?_ hb) hq
    rw [List.length_cons]
    omega

/-- A base has an apostrophe only if it had one before or a token has. -/
theorem quote_of_body? {parts q : Parts} {tokens : List Token} (h : body? parts tokens = some q)
    (hq : '\'' ∈ q.base.toList) : '\'' ∈ parts.base.toList ∨ Token.HasQuote tokens := by
  refine body?_induction (motive := fun parts tokens q => '\'' ∈ q.base.toList →
    '\'' ∈ parts.base.toList ∨ Token.HasQuote tokens) (fun _ => Or.inl) ?_ h hq
  intro parts p q t ts rest hs _ ih hinner hq
  rcases ih hq with hp | ⟨u, hu, hquote⟩
  · refine hs.quote (fun inner other hlt ho hq => ?_) hp
    exact (hinner inner other hlt ho hq).resolve_left (by decide)
  · exact Or.inr ⟨u, List.mem_cons_of_mem _ (hs.rest_suffix.subset hu), hquote⟩

/-! ## Names of nothing -/

/-- Where there is a text, a base is not blank. -/
theorem hollow_of_contents? {command : String} {inner : List Token} {read : Parts}
    (hraw : ∀ t ∈ inner, t.raw ≠ "")
    (h : contents? command inner (body? {} inner) = some read)
    (hbody : ∀ p, body? {} inner = some p → p.Blank → ∀ t ∈ inner, t.IsHollow)
    (hq : read.Blank) : ∀ t ∈ inner, t.IsHollow := by
  have hverbatim : verbatim? inner = some read → ∀ t ∈ inner, t.IsHollow := by
    intro hv
    obtain ⟨texts, htexts, rfl⟩ := verbatim?_eq_some hv
    have hjoin : String.join texts = "" := hq.base
    cases htexts with
    | nil => simp
    | cons ht =>
      rw [String.join_cons] at hjoin
      exact absurd (String.append_eq_empty_iff.1 hjoin).1 (ht.ne_empty (hraw _ List.mem_cons_self))
  rcases body_or_verbatim_of_contents? h with hp | hv
  · exact hbody read hp hq
  · exact hverbatim hv

/-- If a typeface command leaves nothing, it sets names upright and has nothing inside. -/
theorem hollow_of_styled? {command : String} (hf : isTypeface command = true) {inner : List Token}
    {parts : Parts} (hraw : ∀ t ∈ inner, t.raw ≠ "")
    (h : styled? command inner (body? {} inner) = some parts)
    (hbody : ∀ p, body? {} inner = some p → p.Blank → ∀ t ∈ inner, t.IsHollow)
    (hq : parts.Blank) : isUpright command = true ∧ ∀ t ∈ inner, t.IsHollow := by
  obtain ⟨read, hread, ⟨hu, rfl⟩ | ⟨hp, -⟩⟩ := styled?_eq_some h
  · exact ⟨hu hf, hollow_of_contents? hraw hread hbody hq⟩
  · exact absurd (hq.plain.symm.trans hp) (by decide)

/-- What one step leaves blank was blank before, and the step read nothing but hollow tokens. -/
theorem BodyStep.hollow {parts p : Parts} {t : Token} {ts rest : List Token}
    (h : BodyStep parts (t :: ts) p rest) (hraw : ∀ u ∈ t :: ts, u.raw ≠ "")
    (hinner : ∀ inner other, inner.length < (t :: ts).length → (∀ u ∈ inner, u.raw ≠ "") →
      body? {} inner = some other → other.Blank → ∀ u ∈ inner, u.IsHollow)
    (hq : p.Blank) : parts.Blank ∧ ∀ u ∈ t :: ts, u ∈ rest ∨ u.IsHollow := by
  -- the tokens of a group are its braces, which are hollow, and those of its body
  have hgroup : ∀ {us inner : List Token}, group? us = some (inner, rest) →
      (∀ u ∈ inner, u.IsHollow) → ∀ u ∈ us, u ∈ rest ∨ u.IsHollow := by
    intro us inner hg hh u hu
    obtain ⟨opening, close, ho, hc, rfl⟩ := group?_eq_some hg
    rcases List.mem_append.1 hu with hu | hu
    · rcases List.mem_cons.1 hu with rfl | hu
      · exact Or.inr (Or.inl ho)
      · exact Or.inr (hh u hu)
    · rcases List.mem_cons.1 hu with rfl | hu
      · exact Or.inr (Or.inr (Or.inl hc))
      · exact Or.inl hu
  cases h with
  | push ht hp =>
    have hb := (pushBase?_eq_some hp).2
    rw [hq.base] at hb
    exact absurd (String.append_eq_empty_iff.1 hb.symm).2
      (ht.ne_empty (hraw t List.mem_cons_self))
  | modify _ _ hm => exact absurd (hq.plain.symm.trans hm) (by decide)
  | group hg ho hp =>
    have hlt := length_group? hg
    obtain ⟨hparts, hother⟩ := hq.of_merge? hp
    have hsub := (argument?_eq_some (argument?_of_group? hg)).1
    exact ⟨hparts, hgroup hg
      (hinner _ _ (by omega) (fun u hu => hraw u (hsub hu)) ho hother)⟩
  | accent _ _ _ hp =>
    have hother := (hq.of_merge? hp).2.plain
    rw [isPlain_accented] at hother
    exact absurd hother Bool.false_ne_true
  | typeface hk hf hg ho hp =>
    have hlt := length_group? hg
    obtain ⟨hparts, hother⟩ := hq.of_merge? hp
    have hsub := (argument?_eq_some (argument?_of_group? hg)).1
    have hraws := fun u hu => hraw u (List.mem_cons_of_mem t (hsub hu))
    obtain ⟨hu, hh⟩ := hollow_of_styled? hf hraws ho
      (fun p => hinner _ p (by rw [List.length_cons]; omega) hraws) hother
    refine ⟨hparts, fun v hv => ?_⟩
    rcases List.mem_cons.1 hv with rfl | hv
    · exact Or.inr (Or.inr (Or.inr ⟨hk, hu⟩))
    · exact hgroup hg hh v hv

/-- Where nothing but blank parts come out of a body, its tokens are hollow. -/
theorem hollow_of_body? {parts q : Parts} {tokens : List Token} (h : body? parts tokens = some q)
    (hraw : ∀ t ∈ tokens, t.raw ≠ "") (hq : q.Blank) :
    parts.Blank ∧ ∀ t ∈ tokens, t.IsHollow := by
  refine body?_induction (motive := fun parts tokens q => (∀ t ∈ tokens, t.raw ≠ "") → q.Blank →
    parts.Blank ∧ ∀ t ∈ tokens, t.IsHollow) (fun p _ hp => ⟨hp, by simp⟩) ?_ h hraw hq
  intro parts p q t ts rest hs _ ih hinner hraw hq
  have hraws := fun u hu => hraw u (List.mem_cons_of_mem t (hs.rest_suffix.subset hu))
  obtain ⟨hp, hrest⟩ := ih hraws hq
  obtain ⟨hparts, htokens⟩ := hs.hollow hraw
    (fun inner other hlt hi ho hb => (hinner inner other hlt ho hi hb).2) hp
  exact ⟨hparts, fun u hu => (htokens u hu).elim (hrest u) id⟩

/-! ## What is read -/

theorem blank_of_name {p : Parts} (h : p.name = "") : p.Blank := by
  have hl := congrArg String.toList h
  rw [Parts.toList_name, show "".toList = [] from rfl] at hl
  simp only [List.append_eq_nil_iff, wordsBehind, List.flatMap_eq_nil_iff, reduceCtorEq, imp_false,
    ← List.eq_nil_iff_forall_not_mem, String.toList_eq_nil_iff] at hl
  obtain ⟨⟨⟨⟨hb, ha⟩, ht⟩, habove⟩, hbelow⟩ := hl
  refine ⟨hb, ?_⟩
  rw [Parts.isPlain, ha, ht, habove, hbelow]
  rfl

/-- A name begins with its base, if that is anything, and else with a bar. -/
theorem quote_of_name {p : Parts} (h : p.name.toList.head? = some '\'') : '\'' ∈ p.base.toList := by
  have hbars : Breaks (wordsBehind p.accents ++ (wordsBehind p.typefaces ++
      (p.above.flatMap (fun w => '_' :: '_' :: w.toList) ++ (wordsBehind p.below ++ [])))) := by
    refine breaks_wordsBehind _ (breaks_wordsBehind _ ?_)
    cases p.above with
    | nil => exact breaks_wordsBehind _ (by simp [Breaks])
    | cons w ws => exact breaks_cons _
  rw [Parts.toList_name] at h
  cases hb : p.base.toList with
  | nil =>
    rw [hb, List.nil_append, List.append_assoc, List.append_assoc,
      ← List.append_nil (wordsBehind p.below)] at h
    exact absurd (hbars _ h) (by decide)
  | cons c cs =>
    rw [hb] at h
    rw [← Option.some.inj h]
    exact List.mem_cons_self

/-- The name begins with something that is no apostrophe. -/
def Begun (name : String) : Prop :=
  ∃ c ∈ name.toList.head?, c ≠ '\''

/-- A name that is begun is a bare name. -/
theorem Begun.bareName {name : String} (h : Begun name) : Expr.BareName name := by
  obtain ⟨c, hhead, hc⟩ := h
  refine ⟨?_, fun hq => ?_⟩
  · rintro rfl
    cases hhead
  · exact hc (Option.some.inj (hhead.symm.trans hq.2.1))

theorem begun_of_mem_namedSymbols {s : NamedSymbol} (h : s ∈ namedSymbols) : Begun s.name := by
  obtain ⟨hne, hq⟩ := plain_of_mem_namedSymbols h
  cases hcs : s.name.toList with
  | nil => exact absurd (String.toList_eq_nil_iff.1 hcs) hne
  | cons c cs =>
    rw [hcs] at hq
    exact ⟨c, by rw [hcs, List.head?_cons]; exact Option.mem_some_self c,
      fun hc => hq (by rw [hc]; exact List.mem_cons_self)⟩

/-- A character that is a name is no apostrophe. -/
theorem begun_of_charName? {raw name : String} (h : charName? raw = some name) : Begun name := by
  unfold charName? at h
  split at h
  next => cases h
  next c cs heq =>
    have hbegun : c ≠ '\'' → Begun raw := fun hc => ⟨c, by rw [heq, List.head?_cons]; rfl, hc⟩
    split at h
    next hc =>
      -- ASCII letters are names, and no other character of ASCII is
      rw [← Option.some.inj h]
      refine hbegun ?_
      rintro rfl
      exact absurd hc (by decide)
    next =>
      split at h
      next hc =>
        rw [← Option.some.inj h]
        split
        · exact begun_of_mem_namedSymbols (List.mem_of_find?_eq_some ‹_›)
        · refine hbegun ?_
          rintro rfl
          rw [show decide (0x80 ≤ '\''.toNat) = false from rfl, Bool.false_and] at hc
          exact absurd hc Bool.false_ne_true
      next => cases h

/-- An accent or a typeface command with its argument, the tokens after it, and the parts of the
name that they write. -/
inductive Decorates (command : String) (ts inner rest : List Token) : Parts → Prop where
  | accent {a : Accent} {parts : Parts} (ha : accentOfCommand? command = some a)
      (harg : argument? ts = some (inner, rest)) (hb : body? {} inner = some parts) :
      Decorates command ts inner rest { parts with accents := parts.accents ++ [a.name] }
  | typeface {parts : Parts} (hf : isTypeface command = true)
      (hg : group? ts = some (inner, rest))
      (hs : styled? command inner (body? {} inner) = some parts) :
      Decorates command ts inner rest parts

/-- A name is a letter or a character of its own, a named symbol, or written by a command with an
argument. -/
theorem readIdentifier?_cons {t : Token} {ts rest : List Token} {name : String}
    (h : readIdentifier? (t :: ts) = some (name, rest)) :
    charName? t.raw = some name ∨ (∃ s ∈ namedSymbols, s.name = name) ∨
      t.kind = .command ∧
        ∃ inner parts, Decorates t.raw ts inner rest parts ∧ parts.name = name := by
  cases readsOff_of_readIdentifier? h with
  | char _ hc => exact Or.inl hc
  | symbol _ hs => exact Or.inr (Or.inl ⟨_, List.mem_of_find?_eq_some hs, rfl⟩)
  | accent hk ha harg hb => exact Or.inr (Or.inr ⟨hk, _, _, .accent ha harg hb, rfl⟩)
  | typeface hk hf hg hs => exact Or.inr (Or.inr ⟨hk, _, _, .typeface hf hg hs, rfl⟩)

/-- The command of a decoration stands before its argument. -/
theorem Decorates.argument {command : String} {ts inner rest : List Token} {parts : Parts}
    (h : Decorates command ts inner rest parts) : argument? ts = some (inner, rest) := by
  cases h with
  | accent _ harg => exact harg
  | typeface _ hg => exact argument?_of_group? hg

theorem Decorates.quote {command : String} {ts inner rest : List Token} {parts : Parts}
    (h : Decorates command ts inner rest parts) (hq : '\'' ∈ parts.base.toList) :
    Token.HasQuote inner := by
  have hbody : ∀ p, body? {} inner = some p → '\'' ∈ p.base.toList → Token.HasQuote inner :=
    fun p hp hq => (quote_of_body? hp hq).resolve_left (by decide)
  cases h with
  | accent _ _ hb => exact hbody _ hb hq
  | typeface _ _ hs => exact quote_of_styled? hs hbody hq

/-- A decoration of nothing is an upright typeface around hollow tokens. -/
theorem Decorates.hollow {command : String} {ts inner rest : List Token} {parts : Parts}
    (h : Decorates command ts inner rest parts) (hraw : ∀ t ∈ ts, t.raw ≠ "") (hq : parts.Blank) :
    isUpright command = true ∧ group? ts = some (inner, rest) ∧ ∀ t ∈ inner, t.IsHollow := by
  have hsub := (argument?_eq_some h.argument).1
  have hraws := fun t ht => hraw t (hsub ht)
  cases h with
  | accent =>
    have hplain := hq.plain
    rw [isPlain_accented] at hplain
    exact absurd hplain Bool.false_ne_true
  | typeface hf hg hs =>
    obtain ⟨hu, hh⟩ := hollow_of_styled? hf hraws hs
      (fun p hp hb => (hollow_of_body? hp hraws hb).2) hq
    exact ⟨hu, hg, hh⟩

/-- A token that sets names upright is read as a command, if at all. -/
theorem kind_of_isUpright {t : Token} {ts rest : List Token} {name : String}
    (h : readIdentifier? (t :: ts) = some (name, rest)) (hu : isUpright t.raw = true) :
    t.kind = .command := by
  have hno : charName? t.raw = none := by
    rcases Bool.or_eq_true_iff.1 hu with hraw | hraw
    · rw [beq_iff_eq.1 hraw]
      decide
    · rw [beq_iff_eq.1 hraw]
      decide
  cases readsOff_of_readIdentifier? h with
  | char _ hc =>
    rw [hno] at hc
    cases hc
  | symbol hk | accent hk | typeface hk => exact hk

/-- What is wrong with the markup where a symbol or a head gets a name that is not bare. -/
inductive Fault : List Token → String → Prop where
  /-- An upright command has a group with nothing in it. -/
  | hollow {command : Token} {ts inner rest : List Token} (hk : command.kind = .command)
      (hu : isUpright command.raw = true) (hg : group? ts = some (inner, rest))
      (hh : ∀ t ∈ inner, t.IsHollow) : Fault (command :: ts) ""
  /-- A name is nothing but the mark for upright type, which a head drops. -/
  | marked {command : Token} {ts rest : List Token} (hk : command.kind = .command)
      (hu : isUpright command.raw = true)
      (hr : readIdentifier? (command :: ts) = some ("_upright", rest)) : Fault (command :: ts) ""
  /-- There is an apostrophe in the argument of an accent or a typeface. -/
  | quoted {command : Token} {ts inner rest : List Token} {parts : Parts} {name : String}
      (hk : command.kind = .command) (hd : Decorates command.raw ts inner rest parts)
      (hq : Token.HasQuote inner) : Fault (command :: ts) name

/-- Some token sets names upright or has an apostrophe in it. -/
theorem Fault.exists_mem {tokens : List Token} {name : String} (h : Fault tokens name) :
    ∃ t ∈ tokens, t.kind = .command ∧ isUpright t.raw = true ∨ '\'' ∈ t.raw.toList := by
  cases h with
  | hollow hk hu => exact ⟨_, List.mem_cons_self, Or.inl ⟨hk, hu⟩⟩
  | marked hk hu => exact ⟨_, List.mem_cons_self, Or.inl ⟨hk, hu⟩⟩
  | quoted _ hd hq =>
    obtain ⟨t, ht, hquote⟩ := hq
    have hts := (argument?_eq_some hd.argument).1 ht
    exact ⟨t, List.mem_cons_of_mem _ hts, Or.inr hquote⟩

/-- A name that begins with an apostrophe has it from an argument, and an empty one comes from a
group with nothing in it. -/
theorem begun_or_fault {tokens rest : List Token} {name : String} (hraw : ∀ t ∈ tokens, t.raw ≠ "")
    (h : readIdentifier? tokens = some (name, rest)) :
    Begun name ∨ (∀ other, Fault tokens other) ∨ name = "" ∧ Fault tokens "" := by
  cases tokens with
  | nil => cases h
  | cons t ts =>
    rcases readIdentifier?_cons h with hc | ⟨s, hs, rfl⟩ | ⟨hk, inner, parts, hd, rfl⟩
    · exact Or.inl (begun_of_charName? hc)
    · exact Or.inl (begun_of_mem_namedSymbols hs)
    · cases hhead : parts.name.toList.head? with
      | none =>
        have hempty := String.toList_eq_nil_iff.1 (List.head?_eq_none_iff.1 hhead)
        obtain ⟨hu, hg, hh⟩ := hd.hollow (fun u hu => hraw u (List.mem_cons_of_mem t hu))
          (blank_of_name hempty)
        exact Or.inr (Or.inr ⟨hempty, .hollow hk hu hg hh⟩)
      | some c =>
        by_cases hc : c = '\''
        · rw [hc] at hhead
          exact Or.inr (Or.inl fun _ => .quoted hk hd (hd.quote (quote_of_name hhead)))
        · exact Or.inl ⟨c, hhead, hc⟩

end Name
end MathMarkup
