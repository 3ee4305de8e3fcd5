import MathMarkup.Name.Symbols
import MathMarkup.Token.Units

/-!
# Reading names from markup

The way back from markup to names. A body of tokens collects into `Parts`: a base, then its
accents, typefaces and scripts. What follows a modified base cannot extend it, except for further
scripts and accents, so most markup is no name.

`readIdentifier?` takes one name from the start of some tokens and leaves the rest; it never looks
past the tokens it takes. `decode` reads markup that is a name as a whole.
-/

namespace MathMarkup.Name

/-- What a body of tokens says about a name. -/
structure Parts where
  base : String := ""
  accents : List String := []
  typefaces : List String := []
  above : List String := []
  below : List String := []
  deriving DecidableEq, Repr

namespace Parts

/-- Whether there is nothing but a base. -/
def isPlain (p : Parts) : Bool :=
  p.accents.isEmpty && p.typefaces.isEmpty && p.above.isEmpty && p.below.isEmpty

/-- Extends a base that has no modifiers yet. -/
def pushBase? (p : Parts) (text : String) : Option Parts :=
  if p.isPlain then some { p with base := p.base ++ text } else none

/-- Takes over the parts of a group: anything may start a body, and only a plain base can extend
one. -/
def merge? (p other : Parts) : Option Parts :=
  if p.base.isEmpty && p.isPlain then some other
  else if other.isPlain then p.pushBase? other.base
  else none

/-- The name with these parts. -/
def name (p : Parts) : String :=
  p.base ++ String.join ((p.accents ++ p.typefaces).map ("_" ++ ·)) ++
    String.join (p.above.map ("__" ++ ·)) ++ String.join (p.below.map ("_" ++ ·))

end Parts

/-- The tokens up to the brace that closes `depth + 1` open groups, and those after it. -/
def splitClose? (depth : Nat) : List Token → Option (List Token × List Token)
  | [] => none
  | t :: ts =>
    match t.kind, depth with
    | .closeGroup, 0 => some ([], ts)
    | .closeGroup, d + 1 => (splitClose? d ts).map fun r => (t :: r.1, r.2)
    | .openGroup, d => (splitClose? (d + 1) ts).map fun r => (t :: r.1, r.2)
    | _, d => (splitClose? d ts).map fun r => (t :: r.1, r.2)

/-- The contents of a braced group at the start of some tokens, and the tokens after it. -/
def group? : List Token → Option (List Token × List Token)
  | [] => none
  | t :: ts => if t.kind = .openGroup then splitClose? 0 ts else none

/-- The contents of a braced group, or a single token, and the tokens after it. -/
def argument? : List Token → Option (List Token × List Token)
  | [] => none
  | t :: ts =>
    match t.kind with
    | .openGroup => splitClose? 0 ts
    | .closeGroup => none
    | _ => some ([t], ts)

/-- The contents of a group and what is behind it are fewer tokens. -/
theorem length_splitClose? {depth : Nat} {ts inner rest : List Token}
    (h : splitClose? depth ts = some (inner, rest)) :
    inner.length + rest.length < ts.length := by
  induction ts generalizing depth inner rest with
  | nil => simp [splitClose?] at h
  | cons t ts ih =>
    unfold splitClose? at h
    split at h
    · simp only [Option.some.injEq, Prod.mk.injEq] at h
      obtain ⟨rfl, rfl⟩ := h
      simp
    all_goals
      simp only [Option.map_eq_some_iff, Prod.mk.injEq] at h
      obtain ⟨⟨i, r⟩, hr, rfl, rfl⟩ := h
      have := ih hr
      simp only [List.length_cons]
      omega

theorem length_group? {ts inner rest : List Token} (h : group? ts = some (inner, rest)) :
    inner.length + rest.length < ts.length := by
  cases ts with
  | nil => simp [group?] at h
  | cons t ts =>
    simp only [group?] at h
    split at h
    · have := length_splitClose? h
      simp only [List.length_cons]
      omega
    · simp at h

/-- An argument and what is behind it are no more tokens. -/
theorem length_argument? {ts inner rest : List Token}
    (h : argument? ts = some (inner, rest)) : inner.length + rest.length ≤ ts.length := by
  cases ts with
  | nil => simp [argument?] at h
  | cons t ts =>
    simp only [argument?] at h
    split at h
    · have := length_splitClose? h
      simp only [List.length_cons]
      omega
    · simp at h
    · simp only [Option.some.injEq, Prod.mk.injEq] at h
      obtain ⟨rfl, rfl⟩ := h
      simp only [List.length_cons, List.length_nil]
      omega

/-- Cuts tokens at the commas outside of braces. -/
def splitCommas (depth : Nat) : List Token → List (List Token)
  | [] => [[]]
  | t :: ts =>
    if t.kind = .char ∧ depth = 0 ∧ t.raw = "," then [] :: splitCommas 0 ts
    else
      let depth := match t.kind with
        | .openGroup => depth + 1
        | .closeGroup => depth - 1
        | _ => depth
      match splitCommas depth ts with
      | [] => [[t]]
      | piece :: pieces => (t :: piece) :: pieces

/-- A piece between commas has no more tokens than the whole. -/
theorem length_mem_splitCommas {depth : Nat} {ts piece : List Token}
    (h : piece ∈ splitCommas depth ts) : piece.length ≤ ts.length := by
  induction ts generalizing depth piece with
  | nil => simp_all [splitCommas]
  | cons t ts ih =>
    unfold splitCommas at h
    split at h
    · rcases List.mem_cons.1 h with rfl | h
      · simp
      · exact Nat.le_succ_of_le (ih h)
    · revert h
      dsimp only
      -- how deep the rest begins does not matter for the lengths
      generalize (match t.kind with
        | .openGroup => depth + 1
        | .closeGroup => depth - 1
        | _ => depth) = d
      intro h
      cases heq : splitCommas d ts with
      | nil => simp_all
      | cons p ps =>
        rw [heq] at h
        rcases List.mem_cons.1 h with rfl | h
        · have hp : p ∈ splitCommas d ts := by rw [heq]; exact List.mem_cons_self ..
          simpa using ih hp
        · have hp : piece ∈ splitCommas d ts := by rw [heq]; exact List.mem_cons_of_mem _ h
          have := ih hp
          simp only [List.length_cons]
          omega

/-- The character that an escape stands for. -/
def unescape? (command : String) : Option Char :=
  match command.toList with
  | ['\\', c] => if escapedChars.contains c then some c else none
  | _ => none

/-- The tokens as they stand, with the escapes of characters undone. -/
def verbatim? (tokens : List Token) : Option Parts :=
  (tokens.mapM fun t =>
    if t.kind = .command then (unescape? t.raw).map fun c => String.ofList [c]
    else some t.raw).map fun texts => { base := String.join texts }

/-- Whether a command sets a name upright and so may hold one that does not come apart. -/
def isUpright (command : String) : Bool :=
  command == "\\mathrm" || command == "\\operatorname"

/-- Whether a command takes a braced name to set it in a typeface. -/
def isTypeface (command : String) : Bool :=
  command == "\\operatorname" || (typefaceOfCommand? command).isSome

/-- The parts of a name inside a typeface command, given the tokens and what they say as a body.
Upright type is only a modifier where it is needed to tell a name apart, and a lone digit becomes
the word for it. -/
def styled? (command : String) (inner : List Token) (body : Option Parts) : Option Parts := do
  let parts ← if isUpright command then body <|> verbatim? inner else body
  match typefaceOfCommand? command with
  | none => some parts
  | some face =>
    if face.name == "upright" &&
        (1 < Token.countUnits inner || parts.base.toList.head? == some '_') then some parts
    else
      let word := digitWords.find? fun d => parts.isPlain && d.2 == parts.base
      let parts := match word with
        | some d => { parts with base := d.1 }
        | none => parts
      some { parts with typefaces := parts.typefaces ++ [face.name] }

/-- The accent that a superscript of one command stands for. -/
def primeName? : List Token → Option String
  | [t] =>
    if t.raw = "\\prime" then some "prime"
    else if t.raw = "\\doubleprime" then some "dprime"
    else none
  | _ => none

/-- Reads a body of tokens to its end, on top of the parts read so far. -/
def body? (parts : Parts) (tokens : List Token) : Option Parts :=
  match tokens with
  | [] => some parts
  | t :: ts =>
    match t.kind with
    | .closeGroup => none
    | .openGroup =>
      match _h : group? (t :: ts) with
      | some (inner, rest) => do
        let other ← body? {} inner
        body? (← parts.merge? other) rest
      | none => none
    | .command =>
      if t.raw = "\\degree" then body? { parts with accents := parts.accents ++ ["deg"] } ts
      else
        match accentOfCommand? t.raw, isTypeface t.raw, symbolOfCommand? t.raw with
        | some accent, _, _ =>
          match _h : argument? ts with
          | some (inner, rest) => do
            let other ← body? {} inner
            let other := { other with accents := other.accents ++ [accent.name] }
            body? (← parts.merge? other) rest
          | none => none
        | none, true, _ =>
          match _h : group? ts with
          | some (inner, rest) => do
            let other ← styled? t.raw inner (body? {} inner)
            body? (← parts.merge? other) rest
          | none => none
        | none, false, some symbol => do
          body? (← parts.pushBase? symbol.name) ts
        | none, false, none => do
          let c ← unescape? t.raw
          body? (← parts.pushBase? (String.ofList [c])) ts
    | .char =>
      if t.raw = "_" then
        match _h : argument? ts with
        | some (inner, rest) => do
          let names ← (splitCommas 0 inner).attach.mapM fun piece =>
            (body? {} piece.1).map Parts.name
          body? { parts with below := parts.below ++ names } rest
        | none => none
      else if t.raw = "^" then
        match _h : argument? ts with
        | some (inner, rest) =>
          match primeName? inner with
          | some accent => body? { parts with accents := parts.accents ++ [accent] } rest
          | none => do
            let names ← (splitCommas 0 inner).attach.mapM fun piece =>
              (body? {} piece.1).map Parts.name
            body? { parts with above := parts.above ++ names } rest
        | none => none
      else do body? (← parts.pushBase? t.raw) ts
    | _ => do body? (← parts.pushBase? t.raw) ts
termination_by tokens.length
decreasing_by
  all_goals
    try have := length_group? _h
    try have := length_argument? _h
    try have := length_mem_splitCommas piece.2
    simp only [List.length_cons] at *
    omega

/-- The name that a single character token stands for: an ASCII letter, another letter or a
verbatim character, known symbols by their names. -/
def charName? (raw : String) : Option String :=
  match raw.toList with
  | [] => none
  | c :: _ =>
    if c.isAlpha then some raw
    else if 0x80 ≤ c.toNat && (isLetter c || isVerbatim raw) then
      some (match symbolOfChar? c with
        | some s => s.name
        | none => raw)
    else none

/-- A name at the start of some tokens, and the tokens after it: one letter, a command for a
symbol, or an accent or typeface command with its argument. Letters in a row are names of their
own. -/
def readIdentifier? : List Token → Option (String × List Token)
  | [] => none
  | t :: ts =>
    match t.kind with
    | .char => (charName? t.raw).map (·, ts)
    | .command =>
      match symbolOfCommand? t.raw, accentOfCommand? t.raw, isTypeface t.raw with
      | some symbol, _, _ => some (symbol.name, ts)
      | none, some accent, _ => do
        let (inner, rest) ← argument? ts
        let parts ← body? {} inner
        some ({ parts with accents := parts.accents ++ [accent.name] }.name, rest)
      | none, none, true => do
        let (inner, rest) ← group? ts
        let parts ← styled? t.raw inner (body? {} inner)
        some (parts.name, rest)
      | none, none, false => none
    | _ => none

/-- A name is read off the front of some tokens, with the tokens after it: there is one rule for
each way that a name is written. -/
inductive ReadsOff (t : Token) (ts : List Token) : String → List Token → Prop where
  | char {name : String} (hk : t.kind = .char) (hc : charName? t.raw = some name) :
      ReadsOff t ts name ts
  | symbol {s : NamedSymbol} (hk : t.kind = .command) (hs : symbolOfCommand? t.raw = some s) :
      ReadsOff t ts s.name ts
  | accent {a : Accent} {inner rest : List Token} {parts : Parts} (hk : t.kind = .command)
      (ha : accentOfCommand? t.raw = some a) (harg : argument? ts = some (inner, rest))
      (hb : body? {} inner = some parts) :
      ReadsOff t ts { parts with accents := parts.accents ++ [a.name] }.name rest
  | typeface {inner rest : List Token} {parts : Parts} (hk : t.kind = .command)
      (hf : isTypeface t.raw = true) (hg : group? ts = some (inner, rest))
      (hs : styled? t.raw inner (body? {} inner) = some parts) : ReadsOff t ts parts.name rest

theorem readsOff_of_readIdentifier? {t : Token} {ts rest : List Token} {name : String}
    (h : readIdentifier? (t :: ts) = some (name, rest)) : ReadsOff t ts name rest := by
  rw [readIdentifier?] at h
  split at h
  case h_1 hk =>
    obtain ⟨read, hc, heq⟩ := Option.map_eq_some_iff.1 h
    obtain ⟨rfl, rfl⟩ := Prod.mk.inj heq
    exact .char hk hc
  case h_2 hk =>
    split at h
    case h_1 s _ _ hs =>
      obtain ⟨rfl, rfl⟩ := Prod.mk.inj (Option.some.inj h)
      exact .symbol hk hs
    case h_2 a _ _ ha =>
      obtain ⟨⟨inner, after⟩, harg, h⟩ := Option.bind_eq_some_iff.1 h
      obtain ⟨parts, hb, h⟩ := Option.bind_eq_some_iff.1 h
      obtain ⟨rfl, rfl⟩ := Prod.mk.inj (Option.some.inj h)
      exact .accent hk ha harg hb
    case h_3 _ hf =>
      obtain ⟨⟨inner, after⟩, hg, h⟩ := Option.bind_eq_some_iff.1 h
      obtain ⟨parts, hs, h⟩ := Option.bind_eq_some_iff.1 h
      obtain ⟨rfl, rfl⟩ := Prod.mk.inj (Option.some.inj h)
      exact .typeface hk hf hg hs
    case h_4 => cases h
  case h_3 => cases h

/-- A name at the start of some tokens, and how many tokens it takes. -/
def identifier? (tokens : List Token) : Option (String × Nat) :=
  (readIdentifier? tokens).map fun r => (r.1, tokens.length - r.2.length)

/-- The name that some markup writes as a whole. -/
def decode (markup : String) : Option String :=
  let tokens := Token.scan markup
  match readIdentifier? tokens with
  | some (name, []) => some name
  | _ => ((body? {} tokens).map Parts.name).filter (!·.isEmpty)

end MathMarkup.Name
