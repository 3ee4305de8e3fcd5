import MathMarkup.Proofs.NameText
import MathMarkup.Proofs.Numerals

/-!
# What the markup of a name spells

`Spells s ts P` says that some markup is cut into tokens that a body of a name can begin with, and
that it has the parts `P` then; there is one rule for each thing that a base is written with:
letters, digits, the command of a symbol, accents and typefaces. `Leads ts P` says that the name at
the start of the tokens is none other. Inside of a group tokens are looked at before they are read:
its closing brace is searched for, and a list of scripts is cut at its commas. That finds what was
written since tokens that spell something are closed in themselves (`Whole`).
-/

namespace MathMarkup
namespace Name

open MathMarkup.Lexer

/-! ## Closed tokens -/

/-- Puts tokens in front of the first piece. -/
def ontoFirst (ts : List Token) : List (List Token) → List (List Token)
  | [] => [ts]
  | piece :: pieces => (ts ++ piece) :: pieces

/-- Tokens in front of the first piece may be put there in two goes. -/
theorem ontoFirst_append (ts us : List Token) (pieces : List (List Token)) :
    ontoFirst (ts ++ us) pieces = ontoFirst ts (ontoFirst us pieces) := by
  cases pieces with
  | nil => rfl
  | cons piece pieces => simp only [ontoFirst, List.append_assoc]

/-- Tokens that close every group they open, and that have no comma outside of groups as long as at
least `k` groups are open around them. -/
structure Whole (k : Nat) (ts : List Token) : Prop where
  closes : ∀ d us, splitClose? d (ts ++ us) = (splitClose? d us).map fun r => (ts ++ r.1, r.2)
  commas : ∀ d us, k ≤ d → splitCommas d (ts ++ us) = ontoFirst ts (splitCommas d us)

/-- There is always a piece, if an empty one. -/
theorem splitCommas_ne_nil (d : Nat) (ts : List Token) : splitCommas d ts ≠ [] := by
  cases ts with
  | nil => exact List.cons_ne_nil _ _
  | cons t ts =>
    rw [splitCommas]
    split
    · exact List.cons_ne_nil _ _
    · dsimp only
      split <;> exact List.cons_ne_nil _ _

/-- No tokens at all are closed. -/
theorem whole_nil (k : Nat) : Whole k [] where
  closes d us := by
    rw [List.nil_append]
    cases splitClose? d us <;> rfl
  commas d us _ := by
    obtain ⟨piece, pieces, h⟩ := List.exists_cons_of_ne_nil (splitCommas_ne_nil d us)
    rw [List.nil_append, h]
    rfl

/-- A token that is no brace and no comma is closed. -/
theorem whole_token {k : Nat} {t : Token} (ho : t.kind ≠ .openGroup) (hc : t.kind ≠ .closeGroup)
    (hcomma : t.raw = "," → 0 < k) : Whole k [t] where
  closes d us := by
    obtain ⟨raw, kind⟩ := t
    cases kind with
    | openGroup => exact absurd rfl ho
    | closeGroup => exact absurd rfl hc
    | _ => cases d <;> rfl
  commas d us hd := by
    rw [List.singleton_append, splitCommas, if_neg (fun h => by have := hcomma h.2.2; omega)]
    obtain ⟨raw, kind⟩ := t
    cases kind with
    | openGroup => exact absurd rfl ho
    | closeGroup => exact absurd rfl hc
    | _ =>
      dsimp only
      cases splitCommas d us <;> rfl

/-- Closed tokens in a row are closed. -/
theorem Whole.append {k : Nat} {ts us : List Token} (ht : Whole k ts) (hu : Whole k us) :
    Whole k (ts ++ us) where
  closes d vs := by
    rw [List.append_assoc, ht.closes, hu.closes, Option.map_map]
    simp only [Function.comp_def, List.append_assoc]
  commas d vs hd := by
    rw [List.append_assoc, ht.commas d _ hd, hu.commas d _ hd, ontoFirst_append]

/-- Deeper in groups, fewer commas count. -/
theorem Whole.mono {k l : Nat} {ts : List Token} (h : Whole k ts) (hkl : k ≤ l) : Whole l ts :=
  ⟨h.closes, fun d us hd => h.commas d us (Nat.le_trans hkl hd)⟩

/-- The brace after closed tokens is the one that closes their group. -/
theorem Whole.splitClose? {k : Nat} {ts : List Token} (h : Whole k ts) (us : List Token) :
    Name.splitClose? 0 (ts ++ rightBrace :: us) = some (ts, us) := by
  rw [h.closes]
  show some (ts ++ [], us) = _
  rw [List.append_nil]

/-- Braces around tokens let them have commas. -/
theorem Whole.braced {k : Nat} {ts : List Token} (h : Whole (k + 1) ts) :
    Whole k (leftBrace :: ts ++ [rightBrace]) where
  closes d us := by
    -- inside of the braces one more is open, and the closing one is found at the end
    have hin := h.closes (d + 1) (rightBrace :: us)
    rw [List.append_assoc, List.cons_append]
    show (Name.splitClose? (d + 1) (ts ++ rightBrace :: us)).map _ = _
    rw [hin]
    show ((((Name.splitClose? d us).map fun r => (rightBrace :: r.1, r.2)).map _).map _) = _
    rw [Option.map_map, Option.map_map]
    simp only [Function.comp_def, List.cons_append, List.append_assoc, List.nil_append]
  commas d us hd := by
    have hin := h.commas (d + 1) (rightBrace :: us) (Nat.succ_le_succ hd)
    have hclose : splitCommas (d + 1) (rightBrace :: us) =
        ontoFirst [rightBrace] (splitCommas d us) := by
      rw [splitCommas, if_neg (fun h => TokenKind.noConfusion h.1)]
      show (match splitCommas d us with
        | [] => [[rightBrace]]
        | piece :: pieces => (rightBrace :: piece) :: pieces) = _
      cases splitCommas d us <;> rfl
    rw [List.append_assoc, List.cons_append, splitCommas,
      if_neg (fun h => TokenKind.noConfusion h.1)]
    show (match splitCommas (d + 1) (ts ++ rightBrace :: us) with
      | [] => [[leftBrace]]
      | piece :: pieces => (leftBrace :: piece) :: pieces) = _
    rw [hin, hclose]
    cases splitCommas d us <;> simp [ontoFirst]

/-- The token of a comma. -/
def comma : Token := ⟨",", .char⟩

/-- Closed pieces between commas are closed within braces. -/
theorem whole_intercalate {pieces : List (List Token)} (h : ∀ p ∈ pieces, Whole 0 p) :
    Whole 1 ([comma].intercalate pieces) := by
  induction pieces with
  | nil => exact whole_nil 1
  | cons p pieces ih =>
    have hp := (h p List.mem_cons_self).mono (Nat.zero_le 1)
    cases pieces with
    | nil =>
      rw [List.intercalate_singleton]
      exact hp
    | cons q qs =>
      have hcomma : Whole 1 [comma] :=
        whole_token TokenKind.noConfusion TokenKind.noConfusion fun _ => Nat.zero_lt_one
      rw [List.intercalate_cons_cons]
      exact (hp.append hcomma).append (ih fun r hr => h r (List.mem_cons_of_mem p hr))

/-- Cutting at the commas gives the pieces back. -/
theorem splitCommas_intercalate {pieces : List (List Token)} (hne : pieces ≠ [])
    (h : ∀ p ∈ pieces, Whole 0 p) : splitCommas 0 ([comma].intercalate pieces) = pieces := by
  induction pieces with
  | nil => exact absurd rfl hne
  | cons p pieces ih =>
    have hp := (h p List.mem_cons_self).commas 0
    cases pieces with
    | nil =>
      rw [List.intercalate_singleton, ← List.append_nil p, hp [] (Nat.le_refl 0)]
      rfl
    | cons q qs =>
      rw [List.intercalate_cons_cons, List.append_assoc, hp _ (Nat.le_refl 0)]
      show ontoFirst p ([] :: splitCommas 0 ([comma].intercalate (q :: qs))) = _
      rw [ih (List.cons_ne_nil q qs) fun r hr => h r (List.mem_cons_of_mem p hr), ontoFirst,
        List.append_nil]

/-! ## Spelling -/

/-- The markup is cut into the tokens, and the body of a name that begins with them has these parts
then. -/
structure Spells (s : String) (ts : List Token) (P : Parts) : Prop where
  scans : Scans s ts
  whole : Whole 0 ts
  body : ∀ us, body? {} (ts ++ us) = body? P us

/-- Some name can be read at the start of the tokens, and if that takes all of them it is the one
with these parts. -/
def Leads (ts : List Token) (P : Parts) : Prop :=
  ∀ us, ∃ name rest, readIdentifier? (ts ++ us) = some (name, rest) ∧
    (rest = [] → us = [] ∧ name = P.name)

/-- With tokens behind it, what leads a name does not take all of them. -/
theorem Leads.append {ts us : List Token} {P Q : Parts} (h : Leads ts P) (hus : us ≠ []) :
    Leads (ts ++ us) Q := by
  intro vs
  obtain ⟨name, rest, hr, hnil⟩ := h (us ++ vs)
  rw [List.append_assoc]
  exact ⟨name, rest, hr, fun h => absurd (List.append_eq_nil_iff.1 (hnil h).1).1 hus⟩

/-- At the end of its tokens, a body has the parts that it has. -/
theorem body?_nil (P : Parts) : body? P [] = some P := by
  rw [body?]

/-- Tokens that spell parts are read as them. -/
theorem Spells.parts {s : String} {ts : List Token} {P : Parts} (h : Spells s ts P) :
    body? {} ts = some P := by
  have := h.body []
  rw [List.append_nil, body?_nil] at this
  exact this

/-- Markup that spells a name is decoded as it. -/
theorem Spells.decode {s : String} {ts : List Token} {P : Parts} (h : Spells s ts P)
    (hl : Leads ts P) (hne : P.name ≠ "") : Name.decode s = some P.name := by
  obtain ⟨name, rest, hr, hnil⟩ := hl []
  rw [List.append_nil] at hr
  unfold Name.decode
  dsimp only
  rw [h.scans.scan_eq, hr]
  cases rest with
  | nil => rw [(hnil rfl).2]
  | cons t rest =>
    dsimp only
    rw [h.parts, Option.map_some, Option.filter_some, if_pos]
    rw [Bool.not_eq_true', ← Bool.not_eq_true, String.isEmpty_iff]
    exact hne

/-! ## What a body makes of a token -/

/-- The names that are listed in a script. -/
def names? (inner : List Token) : Option (List String) :=
  (splitCommas 0 inner).mapM fun piece => (body? {} piece).map Parts.name

/-- Reading members that are known to be members is reading them. -/
theorem mapM_attach {α β : Type} (f : α → Option β) (as : List α) :
    (as.attach.mapM fun a => f a.1) = as.mapM f := by
  rw [List.mapM_subtype (g := f) fun _ _ => rfl, List.unattach_attach]

/-- What is made of a list is made of its members one by one. -/
theorem mapM_eq_some_iff {α β : Type} {f : α → Option β} {as : List α} {bs : List β} :
    as.mapM f = some bs ↔ as.map f = bs.map some := by
  induction as generalizing bs with
  | nil =>
    rw [List.mapM_nil, List.map_nil, eq_comm (a := []), List.map_eq_nil_iff, eq_comm (a := bs)]
    exact Option.some_inj
  | cons a as ih =>
    rw [List.mapM_cons, List.map_cons]
    constructor
    · intro h
      obtain ⟨b, hb, h⟩ := Option.bind_eq_some_iff.1 h
      obtain ⟨others, hothers, h⟩ := Option.bind_eq_some_iff.1 h
      rw [← Option.some.inj h, List.map_cons, hb, ih.1 hothers]
    · intro h
      obtain ⟨b, others, rfl, hb, hothers⟩ := List.map_eq_cons_iff.1 h.symm
      rw [← hb, ih.2 hothers.symm]
      rfl

/-- The parts of a group, merged into those before it, and then the rest of the body. -/
def mergeThen (parts : Parts) (other : Option Parts) (rest : List Token) : Option Parts :=
  other.bind fun other => (parts.merge? other).bind fun p => body? p rest

/-- What a merge gives comes of parts that were merged and of the rest behind them. -/
theorem mergeThen_eq_some {parts q : Parts} {other : Option Parts} {rest : List Token}
    (h : mergeThen parts other rest = some q) :
    ∃ o p, other = some o ∧ parts.merge? o = some p ∧ body? p rest = some q := by
  obtain ⟨o, ho, h⟩ := Option.bind_eq_some_iff.1 h
  obtain ⟨p, hp, h⟩ := Option.bind_eq_some_iff.1 h
  exact ⟨o, p, ho, hp, h⟩

/-- One step of a body. This is its definition without what shows that it ends. -/
theorem body?_cons (parts : Parts) (t : Token) (ts : List Token) :
    body? parts (t :: ts) =
      match t.kind with
      | .closeGroup => none
      | .openGroup => (group? (t :: ts)).bind fun r => mergeThen parts (body? {} r.1) r.2
      | .command =>
        if t.raw = "\\degree" then body? { parts with accents := parts.accents ++ ["deg"] } ts
        else
          match accentOfCommand? t.raw, isTypeface t.raw, symbolOfCommand? t.raw with
          | some accent, _, _ =>
            (argument? ts).bind fun r =>
              mergeThen parts ((body? {} r.1).map fun other =>
                { other with accents := other.accents ++ [accent.name] }) r.2
          | none, true, _ =>
            (group? ts).bind fun r => mergeThen parts (styled? t.raw r.1 (body? {} r.1)) r.2
          | none, false, some symbol => (parts.pushBase? symbol.name).bind fun p => body? p ts
          | none, false, none =>
            (unescape? t.raw).bind fun c =>
              (parts.pushBase? (String.ofList [c])).bind fun p => body? p ts
      | .char =>
        if t.raw = "_" then
          (argument? ts).bind fun r =>
            (names? r.1).bind fun names => body? { parts with below := parts.below ++ names } r.2
        else if t.raw = "^" then
          (argument? ts).bind fun r =>
            match primeName? r.1 with
            | some accent => body? { parts with accents := parts.accents ++ [accent] } r.2
            | none =>
              (names? r.1).bind fun names => body? { parts with above := parts.above ++ names } r.2
        else (parts.pushBase? t.raw).bind fun p => body? p ts
      | _ => (parts.pushBase? t.raw).bind fun p => body? p ts := by
  rw [body?]
  -- the definition reads the names of a script one by one, with a proof that each is shorter
  simp only [fun inner : List Token =>
    mapM_attach (fun piece => (body? {} piece).map Parts.name) (splitCommas 0 inner)]
  cases t.kind with
  | openGroup => cases group? (t :: ts) <;> rfl
  | command =>
    dsimp only
    split
    · rfl
    · cases accentOfCommand? t.raw with
      | some accent =>
        cases argument? ts with
        | none => rfl
        | some r => cases hb : body? {} r.1 <;> simp [hb, mergeThen]
      | none =>
        cases isTypeface t.raw with
        | true => cases group? ts <;> rfl
        | false => cases symbolOfCommand? t.raw <;> rfl
  | char =>
    dsimp only
    split
    · cases argument? ts <;> rfl
    · split
      · cases argument? ts <;> rfl
      · rfl
  | _ => rfl

section

variable {w : String} {us inner rest : List Token}

/-- What a command makes of a body: an accent, a typeface or a symbol, in this order. -/
theorem body?_command (hdegree : w ≠ "\\degree") (P : Parts) :
    body? P (⟨w, .command⟩ :: us) =
      match accentOfCommand? w, isTypeface w, symbolOfCommand? w with
      | some accent, _, _ =>
        (argument? us).bind fun r =>
          mergeThen P ((body? {} r.1).map fun other =>
            { other with accents := other.accents ++ [accent.name] }) r.2
      | none, true, _ =>
        (group? us).bind fun r => mergeThen P (styled? w r.1 (body? {} r.1)) r.2
      | none, false, some symbol => (P.pushBase? symbol.name).bind fun p => body? p us
      | none, false, none =>
        (unescape? w).bind fun c =>
          (P.pushBase? (String.ofList [c])).bind fun p => body? p us := by
  rw [body?_cons]
  exact if_neg hdegree

/-- A symbol becomes the base, if there is none yet. -/
theorem body?_symbol (hdegree : w ≠ "\\degree") (haccent : accentOfCommand? w = none)
    (hface : isTypeface w = false) {s : NamedSymbol} (hs : symbolOfCommand? w = some s)
    (P : Parts) (us : List Token) :
    body? P (⟨w, .command⟩ :: us) = (P.pushBase? s.name).bind fun q => body? q us := by
  rw [body?_command hdegree, haccent, hface, hs]

/-- An accent goes on what its argument reads as. -/
theorem body?_accent (hdegree : w ≠ "\\degree") {a : Accent} (haccent : accentOfCommand? w = some a)
    (harg : argument? us = some (inner, rest)) {other : Parts} (hother : body? {} inner = some other)
    (P : Parts) :
    body? P (⟨w, .command⟩ :: us) =
      (P.merge? { other with accents := other.accents ++ [a.name] }).bind fun q => body? q rest := by
  rw [body?_command hdegree, haccent, harg]
  dsimp only [Option.bind_some]
  rw [hother]
  rfl

/-- A typeface goes on what its group reads as. -/
theorem body?_typeface (hdegree : w ≠ "\\degree") (haccent : accentOfCommand? w = none)
    (hface : isTypeface w = true) (hgroup : group? us = some (inner, rest)) {other : Parts}
    (hother : styled? w inner (body? {} inner) = some other) (P : Parts) :
    body? P (⟨w, .command⟩ :: us) = (P.merge? other).bind fun q => body? q rest := by
  rw [body?_command hdegree, haccent, hface, hgroup]
  dsimp only [Option.bind_some]
  rw [hother]
  rfl

/-- A degree goes on what was read before it. -/
theorem body?_degree (P : Parts) (us : List Token) :
    body? P (⟨"\\degree", .command⟩ :: us) =
      body? { P with accents := P.accents ++ ["deg"] } us := by
  rw [body?_cons]
  rfl

/-- A subscript is a list of names below. -/
theorem body?_subscript (harg : argument? us = some (inner, rest)) (P : Parts) :
    body? P (⟨"_", .char⟩ :: us) =
      (names? inner).bind fun names => body? { P with below := P.below ++ names } rest := by
  rw [body?_cons, harg]
  rfl

/-- A superscript is a prime or a list of names above. -/
theorem body?_superscript (harg : argument? us = some (inner, rest)) (P : Parts) :
    body? P (⟨"^", .char⟩ :: us) =
      match primeName? inner with
      | some accent => body? { P with accents := P.accents ++ [accent] } rest
      | none =>
        (names? inner).bind fun names => body? { P with above := P.above ++ names } rest := by
  rw [body?_cons, harg]
  rfl

end

/-- A name that begins with an accent ends with the argument. -/
theorem readIdentifier?_accent {w : String} (hsymbol : symbolOfCommand? w = none) {a : Accent}
    (haccent : accentOfCommand? w = some a) {us inner rest : List Token}
    (harg : argument? us = some (inner, rest)) {other : Parts}
    (hother : body? {} inner = some other) :
    readIdentifier? (⟨w, .command⟩ :: us) =
      some ({ other with accents := other.accents ++ [a.name] }.name, rest) := by
  rw [readIdentifier?]
  simp only [hsymbol, haccent]
  rw [harg]
  show ((body? {} inner).bind fun P =>
    some ({ P with accents := P.accents ++ [a.name] }.name, rest)) = _
  rw [hother]
  rfl

/-- A name that begins with a typeface ends with the group. -/
theorem readIdentifier?_typeface {w : String} (hsymbol : symbolOfCommand? w = none)
    (haccent : accentOfCommand? w = none) (hface : isTypeface w = true)
    {us inner rest : List Token} (hgroup : group? us = some (inner, rest)) {other : Parts}
    (hother : styled? w inner (body? {} inner) = some other) :
    readIdentifier? (⟨w, .command⟩ :: us) = some (other.name, rest) := by
  rw [readIdentifier?]
  simp only [hsymbol, haccent, hface]
  rw [hgroup]
  show ((styled? w inner (body? {} inner)).bind fun P => some (P.name, rest)) = _
  rw [hother]
  rfl

/-! ## Bases -/

/-- A control word is closed. -/
theorem whole_command {w : String} (hw : ControlWord w) (k : Nat) : Whole k [⟨w, .command⟩] :=
  whole_token TokenKind.noConfusion TokenKind.noConfusion fun h => by
    obtain ⟨cs, -, -, hcs⟩ := hw.letters
    rw [show w = "," from h] at hcs
    exact absurd hcs (by simp)

/-- The command of a named symbol is read as its name. -/
theorem spells_symbol {s : NamedSymbol} (hs : s ∈ namedSymbols) :
    ∃ ts, Spells s.command ts { base := s.name } ∧ Leads ts { base := s.name } := by
  have hall : ∀ s ∈ namedSymbols, (isSign s.command && s.command.toList.head? == some '\\') = true ∧
      s.command ≠ "\\degree" ∧ accentOfCommand? s.command = none ∧
      isTypeface s.command = false ∧ symbolOfCommand? s.command = some s := by
    decide
  obtain ⟨hsign, hdegree, haccent, hface, hsymbol⟩ := hall s hs
  obtain ⟨hw, hk⟩ := controlWord_of_isSign hsign
  refine ⟨[⟨s.command, .command⟩], ⟨scans_controlWord hw hk, whole_command hw 0, fun us => ?_⟩,
    fun us => ⟨s.name, us, ?_, fun h => ⟨h, ?_⟩⟩⟩
  · rw [List.singleton_append, body?_symbol hdegree haccent hface hsymbol]
    show body? { base := "" ++ s.name } us = _
    rw [String.empty_append]
  · rw [List.singleton_append, readIdentifier?]
    simp only [hsymbol]
  · show _ = s.name ++ "" ++ "" ++ ""
    simp only [String.append_empty]

/-- A base alone is named by itself. -/
theorem Parts.name_base (base : String) : Parts.name { base } = base := by
  show base ++ "" ++ "" ++ "" = base
  simp only [String.append_empty]

/-- Letters are closed: none is a comma. -/
theorem whole_letters {cs : List Char} (h : ∀ c ∈ cs, c.isAlpha = true) (k : Nat) :
    Whole k (cs.map letterToken) := by
  induction cs with
  | nil => exact whole_nil k
  | cons c cs ih =>
    have hne := not_mem_of_letter (h c List.mem_cons_self) (show [","].all _ from by decide)
    have hc : Whole k [letterToken c] :=
      whole_token TokenKind.noConfusion TokenKind.noConfusion fun hcomma =>
        absurd (hcomma ▸ List.mem_cons_self) hne
    exact hc.append (ih fun d hd => h d (List.mem_cons_of_mem c hd))

/-- A word is read letter by letter. -/
theorem spells_word {cs : List Char} (h : Word cs) :
    ∃ ts, Spells (String.ofList cs) ts { base := String.ofList cs } ∧
      Leads ts { base := String.ofList cs } := by
  refine ⟨cs.map letterToken, ⟨scans_letters h.letters, whole_letters h.letters 0, fun us => ?_⟩, ?_⟩
  · rw [body?_letters h.letters, String.empty_append]
  · obtain ⟨c, cs, rfl⟩ := List.exists_cons_of_ne_nil h.ne_nil
    intro us
    have hc := h.letters c List.mem_cons_self
    have hname : charName? (String.ofList [c]) = some (String.ofList [c]) := by
      unfold charName?
      rw [String.toList_ofList]
      dsimp only
      rw [hc, if_pos rfl]
    refine ⟨String.ofList [c], cs.map letterToken ++ us, ?_, fun hnil => ?_⟩
    · show (charName? (String.ofList [c])).map _ = _
      rw [hname]
      rfl
    · obtain ⟨hcs, hus⟩ := List.append_eq_nil_iff.1 hnil
      rw [List.map_eq_nil_iff.1 hcs, Parts.name_base]
      exact ⟨hus, rfl⟩

/-- Digits spell a base. -/
theorem spells_digits {ds : List Char} (h : Digits ds) :
    Spells (String.ofList ds) [⟨String.ofList ds, .number⟩] { base := String.ofList ds } where
  scans := by
    have hgroup : ∀ g ∈ [ds], g ≠ [] ∧ ∀ c ∈ g, c.isDigit = true := fun g hg => by
      rw [List.mem_singleton.1 hg]
      exact ⟨h.ne_nil, h.digits⟩
    exact Numeral.scans_groups (List.cons_ne_nil ds []) hgroup
  whole := whole_token TokenKind.noConfusion TokenKind.noConfusion fun hcomma => by
    have hds := congrArg String.toList (show String.ofList ds = "," from hcomma)
    rw [String.toList_ofList] at hds
    exact absurd (h.digits ',' (hds ▸ List.mem_cons_self)) (by decide)
  body us := by
    rw [List.singleton_append, body?]
    show body? { base := "" ++ String.ofList ds } us = _
    rw [String.empty_append]

/-- A word is written as it stands or as the command of the symbol that it names. -/
theorem spells_baseMarkup {cs : List Char} (h : Word cs) :
    ∃ ts, Spells (baseMarkup cs) ts { base := String.ofList cs } ∧
      Leads ts { base := String.ofList cs } := by
  unfold baseMarkup
  cases hs : symbolNamed? (String.ofList cs) with
  | none => exact spells_word h
  | some s =>
    have hname : s.name = String.ofList cs := by
      have := List.find?_some hs
      exact beq_iff_eq.1 this
    rw [← hname]
    exact spells_symbol (List.mem_of_find?_eq_some hs)

/-- Digits are written as they are. -/
theorem baseMarkup_digits {ds : List Char} (h : Digits ds) : baseMarkup ds = String.ofList ds := by
  have hall : namedSymbols.all fun s => s.name.toList.all fun c => !c.isDigit := by decide
  have hnone : symbolNamed? (String.ofList ds) = none := by
    refine List.find?_eq_none.2 fun s hs heq => ?_
    have hname := List.all_eq_true.1 hall s hs
    rw [beq_iff_eq.1 heq, String.toList_ofList] at hname
    obtain ⟨d, rest, hd⟩ := List.exists_cons_of_ne_nil h.ne_nil
    have hm : d ∈ ds := hd ▸ List.mem_cons_self
    have := List.all_eq_true.1 hname d hm
    rw [h.digits d hm] at this
    exact Bool.noConfusion this
  rw [baseMarkup, hnone]

/-! ## Accents and typefaces -/

/-- The tokens of a command with its argument. -/
def wrapped (w : String) (ts : List Token) : List Token :=
  ⟨w, .command⟩ :: (leftBrace :: ts ++ [rightBrace])

/-- What comes behind a command with its argument. -/
theorem wrapped_append (w : String) (ts us : List Token) :
    wrapped w ts ++ us = ⟨w, .command⟩ :: leftBrace :: (ts ++ rightBrace :: us) := by
  simp only [wrapped, List.cons_append, List.append_assoc, List.nil_append]

/-- A command with its argument is cut into the command and the tokens between braces. -/
theorem scans_wrapped {w s : String} {ts : List Token} (hw : ControlWord w)
    (hk : w ∉ Parser.spacing) (h : Scans s ts) : Scans (w ++ braced s) (wrapped w ts) := by
  refine (scans_controlWord hw hk).append h.braced ?_
  rw [braced, String.append_assoc]
  exact stops_braced _

/-- A command with its argument is closed. -/
theorem whole_wrapped {w : String} {ts : List Token} (hw : ControlWord w) (h : Whole 0 ts) :
    Whole 0 (wrapped w ts) :=
  (whole_command hw 0).append (h.mono (Nat.zero_le 1)).braced

/-- An accent around what it is on. -/
theorem Spells.wrap {s : String} {ts : List Token} {P : Parts} (h : Spells s ts P) {a : Accent}
    (ha : a ∈ accents) (hp : a.placement = .wrap) :
    Spells (a.markup ++ braced s) (wrapped a.markup ts)
        { P with accents := P.accents ++ [a.name] } ∧
      Leads (wrapped a.markup ts) { P with accents := P.accents ++ [a.name] } := by
  have hall : ∀ a ∈ accents, a.placement = .wrap →
      (isSign a.markup && a.markup.toList.head? == some '\\') = true ∧ a.markup ≠ "\\degree" ∧
      accentOfCommand? a.markup = some a ∧ symbolOfCommand? a.markup = none := by
    decide
  obtain ⟨hsign, hdegree, haccent, hsymbol⟩ := hall a ha hp
  obtain ⟨hw, hk⟩ := controlWord_of_isSign hsign
  have harg : ∀ us, argument? (leftBrace :: (ts ++ rightBrace :: us)) = some (ts, us) :=
    fun us => h.whole.splitClose? us
  refine ⟨⟨scans_wrapped hw hk h.scans, whole_wrapped hw h.whole, fun us => ?_⟩, fun us => ?_⟩
  · rw [wrapped_append, body?_accent hdegree haccent (harg us) h.parts]
    rfl
  · refine ⟨_, us, ?_, fun hus => ⟨hus, rfl⟩⟩
    rw [wrapped_append, readIdentifier?_accent hsymbol haccent (harg us) h.parts]

/-- The tokens of an accent behind what it is on. -/
def afterTokens (a : Accent) : List Token :=
  if a.name = "deg" then [⟨"\\degree", .command⟩]
  else if a.name = "prime" then
    ⟨"^", .char⟩ :: (leftBrace :: [⟨"\\prime", .command⟩] ++ [rightBrace])
  else ⟨"^", .char⟩ :: (leftBrace :: [⟨"\\doubleprime", .command⟩] ++ [rightBrace])

/-- A caret is one token. -/
theorem scans_caret : Scans "^" [⟨"^", .char⟩] :=
  scans_lone (c := '^') (by decide) (by decide)

/-- An underscore is one token. -/
theorem scans_underscore : Scans "_" [⟨"_", .char⟩] :=
  scans_lone (c := '_') (by decide) (by decide)

/-- What begins with no letter, digit or point stops a control word or a number in front of it. -/
theorem stops_of_all {cs : List Char}
    (h : cs.head?.all (fun c => !c.isAlpha && !c.isDigit && c != '.')) : Stops cs := by
  intro c hc
  rw [hc, Option.all_some] at h
  simp only [Bool.and_eq_true, Bool.not_eq_true', bne_iff_ne] at h
  exact ⟨h.1.1, h.1.2, h.2⟩

/-- The signs of a prime and of a double prime. -/
theorem spells_primes {w : String} (name : String) (hw : ControlWord w ∧ w ∉ Parser.spacing)
    (hname : primeName? [⟨w, .command⟩] = some name) :
    Scans ("^" ++ braced w) (⟨"^", .char⟩ :: (leftBrace :: [⟨w, .command⟩] ++ [rightBrace])) ∧
      Whole 0 (⟨"^", .char⟩ :: (leftBrace :: [⟨w, .command⟩] ++ [rightBrace])) ∧
      ∀ P us, body? P (⟨"^", .char⟩ :: (leftBrace :: [⟨w, .command⟩] ++ [rightBrace]) ++ us) =
        body? { P with accents := P.accents ++ [name] } us := by
  have hcaret : Whole 0 [⟨"^", .char⟩] :=
    whole_token TokenKind.noConfusion TokenKind.noConfusion (by decide)
  refine ⟨?_, hcaret.append (whole_command hw.1 1).braced, fun P us => ?_⟩
  · refine scans_caret.append (scans_controlWord hw.1 hw.2).braced ?_
    rw [braced, String.append_assoc]
    exact stops_braced _
  · have harg : argument? (leftBrace :: [⟨w, .command⟩] ++ [rightBrace] ++ us) =
        some ([⟨w, .command⟩], us) := rfl
    rw [List.cons_append, body?_superscript harg, hname]

/-- An accent behind what it is on. -/
theorem afterTokens_spec {a : Accent} (ha : a ∈ accents) (hp : a.placement = .after) :
    Scans a.markup (afterTokens a) ∧ Whole 0 (afterTokens a) ∧ Stops a.markup.toList ∧
      ∀ P us, body? P (afterTokens a ++ us) =
        body? { P with accents := P.accents ++ [a.name] } us := by
  have hall : ∀ a ∈ accents, a.placement = .after → a ∈ [⟨"deg", "\\degree", .after⟩,
      ⟨"prime", "^\x7b\\prime\x7d", .after⟩, ⟨"dprime", "^\x7b\\doubleprime\x7d", .after⟩] := by
    decide
  have hmem := hall a ha hp
  simp only [List.mem_cons, List.not_mem_nil, or_false] at hmem
  rcases hmem with rfl | rfl | rfl
  · have hw := controlWord_of_isSign (w := "\\degree") (by decide)
    exact ⟨scans_controlWord hw.1 hw.2, whole_command hw.1 0, stops_of_all (by decide),
      fun P us => body?_degree P us⟩
  · obtain ⟨hscans, hwhole, hbody⟩ := spells_primes (w := "\\prime") "prime"
      (controlWord_of_isSign (by decide)) rfl
    exact ⟨hscans, hwhole, stops_of_all (by decide), hbody⟩
  · obtain ⟨hscans, hwhole, hbody⟩ := spells_primes (w := "\\doubleprime") "dprime"
      (controlWord_of_isSign (by decide)) rfl
    exact ⟨hscans, hwhole, stops_of_all (by decide), hbody⟩

/-- An accent behind what it is on is spelled after it. -/
theorem Spells.after {s : String} {ts : List Token} {P : Parts} (h : Spells s ts P) {a : Accent}
    (ha : a ∈ accents) (hp : a.placement = .after) :
    Spells (s ++ a.markup) (ts ++ afterTokens a) { P with accents := P.accents ++ [a.name] } := by
  obtain ⟨hscans, hwhole, hstops, hbody⟩ := afterTokens_spec ha hp
  refine ⟨h.scans.append hscans hstops, h.whole.append hwhole, fun us => ?_⟩
  rw [List.append_assoc, h.body, hbody]

/-- An accent behind what it is on has tokens. -/
theorem afterTokens_ne_nil (a : Accent) : afterTokens a ≠ [] := by
  unfold afterTokens
  split
  · exact List.cons_ne_nil _ _
  · split <;> exact List.cons_ne_nil _ _

/-- The parts with more accents. -/
def Parts.withAccents (P : Parts) (as : List Accent) : Parts :=
  { P with accents := P.accents ++ as.map (·.name) }

/-- Accents go on one after the other. -/
theorem Spells.accents {as : List Accent} (has : ∀ a ∈ as, a ∈ Name.accents) {s : String}
    {ts : List Token} {P : Parts} (h : Spells s ts P) :
    ∃ ts', Spells (as.foldl Accent.apply s) ts' (P.withAccents as) ∧
      (Leads ts P → Leads ts' (P.withAccents as)) := by
  -- on the accents, from the innermost one; one that goes behind does not lead a name
  induction as generalizing s ts P with
  | nil =>
    have hP : P.withAccents [] = P := by
      simp only [Parts.withAccents, List.map_nil, List.append_nil]
    rw [hP]
    exact ⟨ts, h, id⟩
  | cons a as ih =>
    have ha := has a List.mem_cons_self
    have hP : P.withAccents (a :: as) =
        { P with accents := P.accents ++ [a.name] }.withAccents as := by
      simp only [Parts.withAccents, List.map_cons, List.append_assoc, List.singleton_append]
    have has' : ∀ b ∈ as, b ∈ Name.accents := fun b hb => has b (List.mem_cons_of_mem a hb)
    rw [List.foldl_cons, Accent.apply, hP]
    cases hp : a.placement with
    | wrap =>
      obtain ⟨hspells, hleads⟩ := h.wrap ha hp
      obtain ⟨ts', h', hl⟩ := ih has' hspells
      exact ⟨ts', h', fun _ => hl hleads⟩
    | after =>
      obtain ⟨ts', h', hl⟩ := ih has' (h.after ha hp)
      exact ⟨ts', h', fun hleads => hl (hleads.append (afterTokens_ne_nil a))⟩

/-- The base begins with a letter, so it is none of the digits that have a word. -/
def Parts.Lettered (P : Parts) : Prop :=
  ∃ c ∈ P.base.toList.head?, c.isAlpha = true

/-- A base that begins with a letter is no digit with a word. -/
theorem find?_digit_of_lettered {P : Parts} (hP : P.Lettered) :
    digitWords.find? (fun d => P.isPlain && d.2 == P.base) = none := by
  have hall : digitWords.all fun d => d.2.toList.head?.all fun c => !c.isAlpha := by
    decide
  refine List.find?_eq_none.2 fun d hd heq => ?_
  obtain ⟨c, hc, hl⟩ := hP
  have := List.all_eq_true.1 hall d hd
  rw [beq_iff_eq.1 (Bool.and_eq_true_iff.1 heq).2, Option.mem_def.1 hc, Option.all_some, hl] at this
  exact Bool.noConfusion this

/-- A typeface goes on parts that begin with a letter. -/
theorem styled?_typeface {t : Typeface} (ht : t ∈ typefaces) (hn : t.name ∉ ambiguousTypefaces)
    {P : Parts} (hP : P.Lettered) (inner : List Token) :
    styled? t.command inner (some P) =
      some { P with typefaces := P.typefaces ++ [t.name] } := by
  have hall : ∀ t ∈ typefaces, t.name ∉ ambiguousTypefaces → isUpright t.command = false ∧
      typefaceOfCommand? t.command = some t ∧ (t.name == "upright") = false := by
    decide
  obtain ⟨hupright, hface, hname⟩ := hall t ht hn
  rw [styled?, hupright, if_neg Bool.false_ne_true]
  simp only [hface, hname, Bool.false_and, Bool.false_eq_true, if_false,
    find?_digit_of_lettered hP, Option.bind_eq_bind, Option.bind_some]

/-- Some markup in a typeface. -/
theorem Spells.typeface {s : String} {ts : List Token} {P : Parts} (h : Spells s ts P)
    (hP : P.Lettered) {t : Typeface} (ht : t ∈ typefaces) (hn : t.name ∉ ambiguousTypefaces) :
    Spells (t.command ++ braced s) (wrapped t.command ts)
        { P with typefaces := P.typefaces ++ [t.name] } ∧
      Leads (wrapped t.command ts) { P with typefaces := P.typefaces ++ [t.name] } := by
  -- what is needed of a command holds of all of them, by going through the table
  have hall : ∀ t ∈ typefaces,
      (isSign t.command && t.command.toList.head? == some '\\') = true ∧ t.command ≠ "\\degree" ∧
      accentOfCommand? t.command = none ∧ isTypeface t.command = true ∧
      symbolOfCommand? t.command = none := by
    decide
  obtain ⟨hsign, hdegree, haccent, hface, hsymbol⟩ := hall t ht
  obtain ⟨hw, hk⟩ := controlWord_of_isSign hsign
  have hgroup : ∀ us, group? (leftBrace :: (ts ++ rightBrace :: us)) = some (ts, us) :=
    fun us => h.whole.splitClose? us
  have hstyled : styled? t.command ts (body? {} ts) =
      some { P with typefaces := P.typefaces ++ [t.name] } := by
    rw [h.parts, styled?_typeface ht hn hP]
  refine ⟨⟨scans_wrapped hw hk h.scans, whole_wrapped hw h.whole, fun us => ?_⟩,
    fun us => ⟨_, us, ?_, fun hus => ⟨hus, rfl⟩⟩⟩
  · rw [wrapped_append, body?_typeface hdegree haccent hface (hgroup us) hstyled]
    rfl
  · rw [wrapped_append, readIdentifier?_typeface hsymbol haccent hface (hgroup us) hstyled]

/-- Some markup of several units set upright. That is no modifier. -/
theorem Spells.upright {s : String} {ts : List Token} {P : Parts} (h : Spells s ts P)
    (hunits : 1 < Token.countUnits ts) :
    Spells ("\\mathrm" ++ braced s) (wrapped "\\mathrm" ts) P ∧
      Leads (wrapped "\\mathrm" ts) P := by
  obtain ⟨hw, hk⟩ := controlWord_of_isSign (w := "\\mathrm") (by decide)
  have hgroup : ∀ us, group? (leftBrace :: (ts ++ rightBrace :: us)) = some (ts, us) :=
    fun us => h.whole.splitClose? us
  have hstyled : styled? "\\mathrm" ts (body? {} ts) = some P := by
    rw [h.parts]
    show (if (true && (decide (1 < Token.countUnits ts) || _)) = true then some P else _) = _
    rw [decide_eq_true hunits]
    rfl
  refine ⟨⟨scans_wrapped hw hk h.scans, whole_wrapped hw h.whole, fun us => ?_⟩,
    fun us => ⟨_, us, ?_, fun hus => ⟨hus, rfl⟩⟩⟩
  · rw [wrapped_append, body?_typeface (by decide) (by decide) (by decide) (hgroup us) hstyled]
    rfl
  · rw [wrapped_append, readIdentifier?_typeface (by decide) (by decide) (by decide) (hgroup us)
      hstyled]

/-- The parts with more typefaces. -/
def Parts.withTypefaces (P : Parts) (ts : List Typeface) : Parts :=
  { P with typefaces := P.typefaces ++ ts.map (·.name) }

/-- Typefaces go on one after the other. -/
theorem Spells.typefaces {faces : List Typeface}
    (hfaces : ∀ t ∈ faces, t ∈ Name.typefaces ∧ t.name ∉ ambiguousTypefaces) {s : String}
    {ts : List Token} {P : Parts} (hP : P.Lettered) (h : Spells s ts P) :
    ∃ ts', Spells (faces.foldl Typeface.apply s) ts' (P.withTypefaces faces) ∧
      (Leads ts P ∨ faces ≠ [] → Leads ts' (P.withTypefaces faces)) := by
  induction faces generalizing s ts P with
  | nil =>
    have hnil : P.withTypefaces [] = P := by
      simp only [Parts.withTypefaces, List.map_nil, List.append_nil]
    rw [hnil]
    exact ⟨ts, h, fun hl => hl.resolve_right (by simp)⟩
  | cons t faces ih =>
    have hcons : P.withTypefaces (t :: faces) =
        { P with typefaces := P.typefaces ++ [t.name] }.withTypefaces faces := by
      simp only [Parts.withTypefaces, List.map_cons, List.append_assoc, List.singleton_append]
    obtain ⟨ht, hn⟩ := hfaces t List.mem_cons_self
    obtain ⟨hspells, hleads⟩ := h.typeface hP ht hn
    obtain ⟨ts', h', hl⟩ := ih (fun u hu => hfaces u (List.mem_cons_of_mem t hu))
      (P := { P with typefaces := P.typefaces ++ [t.name] }) hP hspells
    rw [List.foldl_cons, hcons]
    exact ⟨ts', h', fun _ => hl (Or.inl hleads)⟩

end Name
end MathMarkup
