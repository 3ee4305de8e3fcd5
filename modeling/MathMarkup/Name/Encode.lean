import MathMarkup.Name.Symbols
import MathMarkup.Token.Units

/-!
# Writing names as markup

A symbol name is a base with modifiers behind underscores: accents, then typefaces, then
superscripts after two underscores and subscripts after one. A base that spells a known letter or
symbol is written as its command. Every name has a rendering: one that does not come apart in this
way is written upright as it stands, with the characters that mean something escaped.
-/

namespace MathMarkup.Name

/-- How a name without a typeface of its own is wrapped. -/
inductive Wrapping where
  /-- Upright if its rendering has more than one lexical unit. -/
  | auto
  | upright
  | italic
  /-- As the name of an operator. -/
  | operator
  | none
  deriving DecidableEq, Repr

/-- An argument in braces. -/
def braced (markup : String) : String :=
  "\x7b" ++ markup ++ "\x7d"

/-- The modifier word after an underscore, and the rest. -/
def modifier? : List Char → Option (String × List Char)
  | '_' :: cs =>
    match cs.takeWhile Char.isAlpha with
    | [] => none
    | word => some (String.ofList word, cs.dropWhile Char.isAlpha)
  | _ => none

/-- A modifier takes up characters. -/
theorem length_modifier? {cs rest : List Char} {word : String}
    (h : modifier? cs = some (word, rest)) : rest.length < cs.length := by
  unfold modifier? at h
  split at h
  case h_1 cs =>
    split at h
    · simp at h
    · have := (List.dropWhile_sublist (p := Char.isAlpha) (l := cs)).length_le
      simp only [Option.some.injEq, Prod.mk.injEq] at h
      obtain ⟨-, rfl⟩ := h
      simp only [List.length_cons]
      omega
  case h_2 => simp at h

/-- The modifiers of one sort at the start of some text, and the rest. -/
def modifiers {α : Type} (find? : String → Option α) (cs : List Char) : List α × List Char :=
  match _h : modifier? cs with
  | some (word, rest) =>
    match find? word with
    | some a =>
      let r := modifiers find? rest
      (a :: r.1, r.2)
    | none => ([], cs)
  | none => ([], cs)
termination_by cs.length
decreasing_by exact length_modifier? _h

theorem length_modifiers_le {α : Type} (find? : String → Option α) (cs : List Char) :
    (modifiers find? cs).2.length ≤ cs.length := by
  fun_induction modifiers find? cs with
  | case1 cs word rest h a ha r ih =>
    have := length_modifier? h
    have : r.2.length ≤ rest.length := ih
    simp only
    omega
  | case2 => exact Nat.le_refl _
  | case3 => exact Nat.le_refl _

/-- A base with its accents and typefaces, both from the inside out. -/
structure Part where
  base : List Char
  accents : List Accent
  typefaces : List Typeface

/-- The part at the start of a name, and the rest: a base up to the first underscore, accents, and
typefaces. -/
def readPart (cs : List Char) : Part × List Char :=
  let base := cs.takeWhile (· != '_')
  let (accents, rest) := modifiers accentNamed? (cs.dropWhile (· != '_'))
  let (typefaces, rest) := modifiers typefaceNamed? rest
  (⟨base, accents, typefaces⟩, rest)

/-- Reading a part leaves no more characters than there were. -/
theorem length_readPart_le (cs : List Char) : (readPart cs).2.length ≤ cs.length := by
  have h₁ := (List.dropWhile_sublist (p := (· != '_')) (l := cs)).length_le
  have h₂ := length_modifiers_le accentNamed? (cs.dropWhile (· != '_'))
  have h₃ := length_modifiers_le typefaceNamed?
    (modifiers accentNamed? (cs.dropWhile (· != '_'))).2
  simp only [readPart]
  omega

/-- The markup of a base that is a known character, or a word for something that looks like an
operator. -/
def signMarkup? (base : List Char) : Option String :=
  let byChar := match base with
    | [c] => (symbolOfChar? c).map (·.command)
    | _ => none
  byChar <|> symbolWords.lookup (String.ofList base)

/-- The markup of a base. The words for digits count only inside a typeface; a base that stands for
no symbol must be made of word characters. -/
def baseMarkup? (base : List Char) (inTypeface : Bool) : Option String :=
  let word := String.ofList base
  match symbolNamed? word, digitWords.lookup word, signMarkup? base with
  | some s, _, _ => some s.command
  | none, some digit, _ => some (if inTypeface then digit else word)
  | none, none, some markup => some markup
  | none, none, none => if base.all isWordChar then some word else none

/-- Puts an accent on some markup. -/
def Accent.apply (markup : String) (a : Accent) : String :=
  match a.placement with
  | .wrap => a.markup ++ braced markup
  | .after => markup ++ a.markup

/-- Sets some markup in a typeface. -/
def Typeface.apply (markup : String) (t : Typeface) : String :=
  t.command ++ braced markup

/-- The markup of a part without its typefaces. -/
def Part.accented? (p : Part) : Option String :=
  (baseMarkup? p.base !p.typefaces.isEmpty).map fun body => p.accents.foldl Accent.apply body

/-- The markup of a script at the start of some text, and the rest. -/
def script? (cs : List Char) : Option (String × List Char) :=
  let (p, rest) := readPart cs
  p.accented?.map fun body => (p.typefaces.foldl Typeface.apply body, rest)

theorem length_script? {cs rest : List Char} {s : String} (h : script? cs = some (s, rest)) :
    rest.length ≤ cs.length := by
  have := length_readPart_le cs
  simp only [script?, Option.map_eq_some_iff, Prod.mk.injEq] at h
  obtain ⟨_, _, -, rfl⟩ := h
  exact this

/-- The superscripts and subscripts of a name, each in order, and the rest. -/
structure Scripts where
  above : List String
  below : List String
  rest : List Char

/-- Reads scripts until no underscore follows. -/
def scripts? (cs : List Char) : Option Scripts :=
  match cs with
  | '_' :: '_' :: after =>
    match _h : script? after with
    | some (s, rest) => (scripts? rest).map fun r => { r with above := s :: r.above }
    | none => none
  | '_' :: after =>
    match _h : script? after with
    | some (s, rest) => (scripts? rest).map fun r => { r with below := s :: r.below }
    | none => none
  | _ => some ⟨[], [], cs⟩
termination_by cs.length
decreasing_by
  all_goals
    have := length_script? _h
    simp only [List.length_cons]
    omega

/-- Splits the digits off the end of a base that starts with something else; they are its first
subscript. -/
def splitDigits (base : List Char) : List Char × List Char :=
  let digits := (base.reverse.takeWhile Char.isDigit).reverse
  let letters := (base.reverse.dropWhile Char.isDigit).reverse
  if letters.isEmpty then (base, []) else (letters, digits)

/-- Adds scripts behind a mark, separated by commas. -/
def addScripts (mark : String) (scripts : List String) (body : String) : String :=
  if scripts.isEmpty then body else body ++ mark ++ braced (",".intercalate scripts)

/-- Wraps a rendering without a typeface of its own. -/
def Wrapping.apply (w : Wrapping) (body : String) : String :=
  match w with
  | .auto => if 1 < countTokens body then "\\mathrm" ++ braced body else body
  | .upright => "\\mathrm" ++ braced body
  | .italic => "\\mathit" ++ braced body
  | .operator => "\\operatorname" ++ braced body
  | .none => body

/-- The rendering of a name that comes apart into a part and scripts without a rest. -/
def structured? (cs : List Char) (w : Wrapping) : Option String := do
  let (p, rest) := readPart cs
  let (letters, digits) := splitDigits p.base
  let body ← { p with base := letters }.accented?
  let s ← scripts? rest
  let below := if digits.isEmpty then s.below else String.ofList digits :: s.below
  let body := addScripts "_" below (addScripts "^" s.above body)
  let body := if p.typefaces.isEmpty then w.apply body else p.typefaces.foldl Typeface.apply body
  if s.rest.isEmpty then some body else none

/-- A name as it stands, with the characters escaped that mean something in markup. -/
def escape (name : List Char) : String :=
  String.ofList (name.flatMap fun c => if escapedChars.contains c then ['\\', c] else [c])

/-- The upright rendering of a name that does not come apart. -/
def escaped (name : List Char) : String :=
  "\\mathrm" ++ braced (escape name)

/-- The markup of a name. Underscores at its start are part of an upright rendering. -/
def encode (name : String) (w : Wrapping) : String :=
  if isVerbatim name then name
  else
    let cs := name.toList
    let wildcards := cs.takeWhile (· == '_')
    if wildcards.isEmpty then (structured? cs w).getD (escaped cs)
    else
      match structured? (cs.dropWhile (· == '_')) .none with
      | some body => "\\mathrm" ++ braced (escape wildcards ++ body)
      | none => escaped cs

end MathMarkup.Name
