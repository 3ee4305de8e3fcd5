import MathMarkup.Proofs.ReadNames
import MathMarkup.Proofs.Renaming

/-!
# The tokens of a name

A command that stands for no symbol, no accent, no typeface and no character (`Name.Wordless`) can
be no part of a name. So reading a name never takes such a command, however deep in the groups of
the name it would stand.

What a token in a name does is a move (`BodyMove`), and what every move keeps holds of whole bodies
(`body?_moves`).
-/

namespace MathMarkup.Name

/-- A command that means nothing where names are read. -/
structure Wordless (w : String) : Prop where
  ne_degree : w ≠ "\\degree"
  prime : primeName? [⟨w, .command⟩] = none
  accent : accentOfCommand? w = none
  typeface : isTypeface w = false
  symbol : symbolOfCommand? w = none
  escape : unescape? w = none

variable {w : String}

/-- A body never gets past such a command. -/
theorem body?_wordless (hw : Wordless w) (parts : Parts) (ts : List Token) :
    body? parts (⟨w, .command⟩ :: ts) = none := by
  rw [body?_cons]
  dsimp only
  rw [if_neg hw.ne_degree, hw.accent, hw.typeface, hw.symbol]
  dsimp only
  rw [hw.escape]
  rfl

/-! ## Groups and pieces -/

/-- An argument is taken off the front with the braces around it. -/
theorem taken_of_argument? {ts inner rest : List Token} (h : argument? ts = some (inner, rest)) :
    ∃ taken, ts = taken ++ rest ∧ ∀ t ∈ taken, t.kind = .command → t ∈ inner := by
  cases ts with
  | nil => cases h
  | cons u ts =>
    unfold argument? at h
    dsimp only at h
    split at h
    next hu =>
      obtain ⟨close, hc, rfl⟩ := splitClose?_eq_some h
      refine ⟨u :: inner ++ [close], by simp, fun t ht hk => ?_⟩
      rcases List.mem_append.1 ht with ht | ht
      · rcases List.mem_cons.1 ht with rfl | ht
        · cases hk.symm.trans hu
        · exact ht
      · rw [List.mem_singleton.1 ht] at hk
        cases hk.symm.trans hc
    next => cases h
    next =>
      obtain ⟨rfl, rfl⟩ := Prod.mk.inj (Option.some.inj h)
      exact ⟨[u], rfl, fun t ht _ => ht⟩

theorem mem_of_argument? {ts inner rest : List Token} (h : argument? ts = some (inner, rest))
    {t : Token} (ht : t ∈ ts) (hk : t.kind = .command) : t ∈ inner ∨ t ∈ rest := by
  obtain ⟨taken, rfl, htaken⟩ := taken_of_argument? h
  rcases List.mem_append.1 ht with ht | ht
  · exact Or.inl (htaken t ht hk)
  · exact Or.inr ht

/-- A token ends a piece, if it is a comma, or is put in front of the next one. -/
theorem splitCommas_cons (depth : Nat) (t : Token) (ts : List Token) :
    t.kind = .char ∧ splitCommas depth (t :: ts) = [] :: splitCommas 0 ts ∨
      ∃ d, splitCommas depth (t :: ts) = ontoFirst [t] (splitCommas d ts) := by
  rw [splitCommas]
  split
  next h =>
    exact Or.inl ⟨h.1, rfl⟩
  next => exact Or.inr ⟨_, rfl⟩

/-- Every token but a comma is in some piece. -/
theorem mem_of_splitCommas (depth : Nat) {ts : List Token} {t : Token} (ht : t ∈ ts)
    (hk : t.kind = .command) : ∃ piece ∈ splitCommas depth ts, t ∈ piece := by
  induction ts generalizing depth with
  | nil => exact absurd ht List.not_mem_nil
  | cons u ts ih =>
    -- a comma is left out, any other token is put into the piece that comes next
    rcases splitCommas_cons depth u ts with ⟨hu, hsplit⟩ | ⟨d, hsplit⟩
    · rcases List.mem_cons.1 ht with rfl | ht
      · cases hk.symm.trans hu
      · obtain ⟨piece, hp, htp⟩ := ih 0 ht
        rw [hsplit]
        exact ⟨piece, List.mem_cons_of_mem _ hp, htp⟩
    · rw [hsplit]
      cases hpieces : splitCommas d ts with
      | nil => exact absurd hpieces (splitCommas_ne_nil d ts)
      | cons first pieces =>
        rcases List.mem_cons.1 ht with rfl | ht
        · exact ⟨_, List.mem_cons_self, List.mem_cons_self⟩
        · obtain ⟨piece, hp, htp⟩ := ih d ht
          rw [hpieces] at hp
          rcases List.mem_cons.1 hp with rfl | hp
          · exact ⟨_, List.mem_cons_self, List.mem_cons_of_mem _ htp⟩
          · exact ⟨piece, List.mem_cons_of_mem _ hp, htp⟩

/-- The names of a script are read piece by piece. -/
theorem body?_of_names? {inner : List Token} {names : List String}
    (h : names? inner = some names) {piece : List Token} (hp : piece ∈ splitCommas 0 inner) :
    ∃ q, body? {} piece = some q := by
  have hmem := List.mem_map_of_mem (f := fun piece => (body? {} piece).map Parts.name) hp
  rw [mapM_eq_some_iff.1 h] at hmem
  obtain ⟨name, -, hname⟩ := List.mem_map.1 hmem
  obtain ⟨q, hq, -⟩ := Option.map_eq_some_iff.1 hname.symm
  exact ⟨q, hq⟩

/-! ## Moves -/

/-- What the token in front of a body does: the parts after it, and the tokens that are left. This
says more than `BodyStep`, namely which token it is and what the names of a script are read from. -/
inductive BodyMove (parts : Parts) : List Token → Parts → List Token → Prop where
  | raw {t : Token} {ts : List Token} {p : Parts} (hk : t.kind ≠ .command)
      (hp : parts.pushBase? t.raw = some p) : BodyMove parts (t :: ts) p ts
  | symbol {t : Token} {ts : List Token} {s : NamedSymbol} {p : Parts}
      (hs : symbolOfCommand? t.raw = some s) (hp : parts.pushBase? s.name = some p) :
      BodyMove parts (t :: ts) p ts
  | escaped {t : Token} {ts : List Token} {c : Char} {p : Parts} (hc : unescape? t.raw = some c)
      (hp : parts.pushBase? (String.ofList [c]) = some p) : BodyMove parts (t :: ts) p ts
  | degree {t : Token} {ts : List Token} :
      BodyMove parts (t :: ts) { parts with accents := parts.accents ++ ["deg"] } ts
  | group {t : Token} {ts inner rest : List Token} {other p : Parts}
      (hg : group? (t :: ts) = some (inner, rest)) (ho : body? {} inner = some other)
      (hp : parts.merge? other = some p) : BodyMove parts (t :: ts) p rest
  | accent {t : Token} {ts inner rest : List Token} {a : Accent} {other p : Parts}
      (hc : accentOfCommand? t.raw = some a) (ha : argument? ts = some (inner, rest))
      (ho : body? {} inner = some other)
      (hp : parts.merge? { other with accents := other.accents ++ [a.name] } = some p) :
      BodyMove parts (t :: ts) p rest
  | typeface {t : Token} {ts inner rest : List Token} {other p : Parts}
      (hg : group? ts = some (inner, rest))
      (ho : styled? t.raw inner (body? {} inner) = some other)
      (hp : parts.merge? other = some p) : BodyMove parts (t :: ts) p rest
  | below {t : Token} {ts inner rest : List Token} {names : List String}
      (ha : argument? ts = some (inner, rest)) (hn : names? inner = some names) :
      BodyMove parts (t :: ts) { parts with below := parts.below ++ names } rest
  | above {t : Token} {ts inner rest : List Token} {names : List String}
      (ha : argument? ts = some (inner, rest)) (hn : names? inner = some names) :
      BodyMove parts (t :: ts) { parts with above := parts.above ++ names } rest
  /-- A prime is written above the base, but it is an accent. -/
  | primed {t : Token} {ts inner rest : List Token} {accent : String}
      (ha : argument? ts = some (inner, rest)) (hp : primeName? inner = some accent) :
      BodyMove parts (t :: ts) { parts with accents := parts.accents ++ [accent] } rest

theorem bodyMove_of_mergeThen {parts q : Parts} {ts rest : List Token} {other : Option Parts}
    (h : mergeThen parts other rest = some q)
    (hmove : ∀ o p, other = some o → parts.merge? o = some p → BodyMove parts ts p rest) :
    ∃ p rest, BodyMove parts ts p rest ∧ body? p rest = some q := by
  obtain ⟨o, p, ho, hp, h⟩ := mergeThen_eq_some h
  exact ⟨p, rest, hmove o p ho hp, h⟩

theorem bodyMove_of_push {parts q : Parts} {ts rest : List Token} {text : String}
    (h : ((parts.pushBase? text).bind fun p => body? p rest) = some q)
    (hmove : ∀ p, parts.pushBase? text = some p → BodyMove parts ts p rest) :
    ∃ p rest, BodyMove parts ts p rest ∧ body? p rest = some q := by
  obtain ⟨p, hp, h⟩ := Option.bind_eq_some_iff.1 h
  exact ⟨p, rest, hmove p hp, h⟩

/-- A body is read by the moves of its tokens. -/
theorem bodyMove_of_body? {parts q : Parts} {t : Token} {ts : List Token}
    (h : body? parts (t :: ts) = some q) :
    ∃ p rest, BodyMove parts (t :: ts) p rest ∧ body? p rest = some q := by
  rw [body?_cons] at h
  -- the cases are those of the token: a closing brace, an opening one, a command, a character, and
  -- any other token
  split at h
  next => cases h
  next =>
    obtain ⟨⟨inner, rest⟩, hg, h⟩ := Option.bind_eq_some_iff.1 h
    exact bodyMove_of_mergeThen h fun _ _ ho hp => .group hg ho hp
  next =>
    split at h
    · exact ⟨_, ts, .degree, h⟩
    · split at h
      next hc =>
        obtain ⟨⟨inner, rest⟩, ha, h⟩ := Option.bind_eq_some_iff.1 h
        refine bodyMove_of_mergeThen h fun _ _ ho hp => ?_
        obtain ⟨other, hother, rfl⟩ := Option.map_eq_some_iff.1 ho
        exact .accent hc ha hother hp
      next =>
        obtain ⟨⟨inner, rest⟩, hg, h⟩ := Option.bind_eq_some_iff.1 h
        exact bodyMove_of_mergeThen h fun _ _ ho hp => .typeface hg ho hp
      next hs =>
        exact bodyMove_of_push h fun _ hp => .symbol hs hp
      next =>
        obtain ⟨c, hc, h⟩ := Option.bind_eq_some_iff.1 h
        exact bodyMove_of_push h fun _ hp => .escaped hc hp
  next hk =>
    split at h
    · obtain ⟨⟨inner, rest⟩, ha, h⟩ := Option.bind_eq_some_iff.1 h
      obtain ⟨names, hn, h⟩ := Option.bind_eq_some_iff.1 h
      exact ⟨_, rest, .below ha hn, h⟩
    · split at h
      · obtain ⟨⟨inner, rest⟩, ha, h⟩ := Option.bind_eq_some_iff.1 h
        dsimp only at h
        split at h
        next hp =>
          exact ⟨_, rest, .primed ha hp, h⟩
        next =>
          obtain ⟨names, hn, h⟩ := Option.bind_eq_some_iff.1 h
          exact ⟨_, rest, .above ha hn, h⟩
      · exact bodyMove_of_push h fun _ hp => .raw (by rw [hk]; decide) hp
  next => exact bodyMove_of_push h fun _ hp => .raw ‹_› hp

/-- A move takes tokens at the front. -/
theorem BodyMove.rest_suffix {parts p : Parts} {t : Token} {ts rest : List Token}
    (h : BodyMove parts (t :: ts) p rest) : rest <:+ ts := by
  cases h with
  | raw | symbol | escaped | degree => exact List.suffix_rfl
  | group hg =>
    obtain ⟨opening, close, -, -, htokens⟩ := group?_eq_some hg
    rw [(List.cons.inj htokens).2]
    exact (List.suffix_cons _ _).trans (List.suffix_append _ _)
  | accent _ ha | below ha | above ha | primed ha => exact (argument?_eq_some ha).2
  | typeface hg => exact (argument?_eq_some (argument?_of_group? hg)).2

/-- What the moves keep holds of whole bodies, the contents of groups and the names of scripts among
them. -/
theorem body?_moves {motive : Parts → List Token → Parts → Prop}
    (nil : ∀ p, motive p [] p)
    (move : ∀ {parts p q : Parts} {t : Token} {ts rest : List Token},
      body? parts (t :: ts) = some q → BodyMove parts (t :: ts) p rest → motive p rest q →
      (∀ inner other, inner.length ≤ ts.length → body? {} inner = some other →
        motive {} inner other) → motive parts (t :: ts) q)
    {parts q : Parts} {tokens : List Token} (h : body? parts tokens = some q) :
    motive parts tokens q := by
  refine body?_recursion nil (fun {parts q t ts} hq ih => ?_) h
  obtain ⟨p, rest, hm, hr⟩ := bodyMove_of_body? hq
  exact move hq hm (ih p rest q hm.rest_suffix.length_le hr) fun inner other hle ho =>
    ih {} inner other hle ho

/-! ## Names -/

/-- What may stand for the contents of a typeface command holds no such command. -/
theorem not_mem_of_verbatim? (hw : Wordless w) {ts : List Token} {q : Parts}
    (h : verbatim? ts = some q) : (⟨w, .command⟩ : Token) ∉ ts := by
  intro ht
  obtain ⟨texts, hmap, -⟩ := Option.map_eq_some_iff.1 h
  have hmem := List.mem_map_of_mem (f := fun t : Token => if t.kind = .command then
    (unescape? t.raw).map fun c => String.ofList [c] else some t.raw) ht
  rw [mapM_eq_some_iff.1 hmap, if_pos rfl, hw.escape] at hmem
  obtain ⟨text, -, htext⟩ := List.mem_map.1 hmem
  cases htext

theorem not_mem_of_styled? (hw : Wordless w) {command : String} {ts : List Token} {q : Parts}
    (h : styled? command ts (body? {} ts) = some q)
    (hb : ∀ other, body? {} ts = some other → (⟨w, .command⟩ : Token) ∉ ts) :
    (⟨w, .command⟩ : Token) ∉ ts := by
  obtain ⟨read, hread, -⟩ := styled?_eq_some h
  rcases body_or_verbatim_of_contents? hread with hread | hread
  · exact hb read hread
  · exact not_mem_of_verbatim? hw hread

theorem not_mem_of_primeName? (hw : Wordless w) {ts : List Token} {accent : String}
    (h : primeName? ts = some accent) : (⟨w, .command⟩ : Token) ∉ ts := by
  intro ht
  cases ts with
  | nil => cases ht
  | cons t ts =>
    cases ts with
    | nil =>
      rw [← List.mem_singleton.1 ht, hw.prime] at h
      cases h
    | cons u us => cases h

/-- A move goes past no such command, if the bodies that it reads hold none. -/
theorem BodyMove.not_mem (hw : Wordless w) {parts p : Parts} {t : Token} {ts rest : List Token}
    (h : BodyMove parts (t :: ts) p rest) (hrest : (⟨w, .command⟩ : Token) ∉ rest)
    (hinner : ∀ inner other, inner.length ≤ ts.length → body? {} inner = some other →
      (⟨w, .command⟩ : Token) ∉ inner) : (⟨w, .command⟩ : Token) ∉ ts := by
  intro hts
  have hargument : ∀ {inner : List Token}, argument? ts = some (inner, rest) →
      (inner.length ≤ ts.length → (⟨w, .command⟩ : Token) ∉ inner) → False := by
    intro inner ha hin
    have hlen := length_argument? ha
    exact (mem_of_argument? ha hts rfl).elim (hin (by omega)) hrest
  -- a name in a script is the body of a piece between two commas
  have hnames : ∀ {inner : List Token} {names : List String}, names? inner = some names →
      inner.length ≤ ts.length → (⟨w, .command⟩ : Token) ∉ inner := by
    intro inner names hn hlen hin
    obtain ⟨piece, hp, htp⟩ := mem_of_splitCommas 0 hin rfl
    obtain ⟨r, hr⟩ := body?_of_names? hn hp
    exact hinner piece r (Nat.le_trans (length_mem_splitCommas hp) hlen) hr htp
  cases h with
  | raw | symbol | escaped | degree => exact hrest hts
  | group hg ho =>
    have hlen := length_group? hg
    rw [List.length_cons] at hlen
    exact (mem_of_argument? (argument?_of_group? hg) (List.mem_cons_of_mem t hts) rfl).elim
      (hinner _ _ (by omega) ho) hrest
  | accent _ ha ho => exact hargument ha fun hlen => hinner _ _ hlen ho
  | typeface hg ho =>
    exact hargument (argument?_of_group? hg) fun hlen =>
      not_mem_of_styled? hw ho fun _ => hinner _ _ hlen
  | below ha hn | above ha hn => exact hargument ha (hnames hn)
  | primed ha hp => exact hargument ha fun _ => not_mem_of_primeName? hw hp

/-- A body that is read holds no such command. -/
theorem not_mem_of_body? (hw : Wordless w) {parts q : Parts} {ts : List Token}
    (h : body? parts ts = some q) : (⟨w, .command⟩ : Token) ∉ ts := by
  refine @body?_moves (fun _ ts _ => (⟨w, .command⟩ : Token) ∉ ts) (fun _ => List.not_mem_nil) ?_
    _ _ _ h
  intro parts p q t ts rest hread hmove hrest hinner hmem
  rcases List.mem_cons.1 hmem with rfl | hts
  · rw [body?_wordless hw] at hread
    cases hread
  · exact hmove.not_mem hw hrest hinner hts

/-- Reading a name takes tokens at the front, and no such command. -/
theorem taken_of_readIdentifier? (hw : Wordless w) {ts rest : List Token} {name : String}
    (h : readIdentifier? ts = some (name, rest)) :
    ∃ taken, ts = taken ++ rest ∧ (⟨w, .command⟩ : Token) ∉ taken := by
  cases ts with
  | nil => cases h
  | cons t ts =>
    -- the command in front of an argument means something, and the argument is a body
    have hargument : ∀ {inner : List Token}, t ≠ ⟨w, .command⟩ →
        argument? ts = some (inner, rest) → (⟨w, .command⟩ : Token) ∉ inner →
          ∃ taken, t :: ts = taken ++ rest ∧ (⟨w, .command⟩ : Token) ∉ taken := by
      intro inner hne ha hinner
      obtain ⟨taken, rfl, htaken⟩ := taken_of_argument? ha
      refine ⟨t :: taken, rfl, fun hmem => ?_⟩
      rcases List.mem_cons.1 hmem with heq | hmem
      · exact hne heq.symm
      · exact hinner (htaken _ hmem rfl)
    cases readsOff_of_readIdentifier? h with
    | char hk =>
      refine ⟨[t], rfl, fun ht => ?_⟩
      rw [← List.mem_singleton.1 ht] at hk
      cases hk
    | symbol _ hs =>
      refine ⟨[t], rfl, fun ht => ?_⟩
      rw [← List.mem_singleton.1 ht, hw.symbol] at hs
      cases hs
    | accent _ ha harg hb =>
      refine hargument (fun ht => ?_) harg (not_mem_of_body? hw hb)
      rw [ht, hw.accent] at ha
      cases ha
    | typeface _ hf hg hs =>
      refine hargument (fun ht => ?_) (argument?_of_group? hg)
        (not_mem_of_styled? hw hs fun _ => not_mem_of_body? hw)
      rw [ht, hw.typeface] at hf
      cases hf

/-- The tokens of a name hold no such command. -/
theorem not_mem_of_identifier? (hw : Wordless w) {ts : List Token} {name : String} {length : Nat}
    (h : identifier? ts = some (name, length)) : (⟨w, .command⟩ : Token) ∉ ts.take length := by
  obtain ⟨⟨read, rest⟩, hr, heq⟩ := Option.map_eq_some_iff.1 h
  obtain ⟨-, rfl⟩ := Prod.mk.inj heq
  obtain ⟨taken, rfl, htaken⟩ := taken_of_readIdentifier? hw hr
  rw [List.length_append, Nat.add_sub_cancel, List.take_left]
  exact htaken

end MathMarkup.Name
