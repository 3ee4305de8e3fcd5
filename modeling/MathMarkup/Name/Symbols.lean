import MathMarkup.Text.Letter

/-!
# The symbols that names know

Finite tables: named letters and symbols with their command and character, spelled-out digits and
operator-like symbols, the accents and styles that modify a base, and the characters that need a
backslash inside an upright name. No two named symbols share a name, a command or a character. Two
spellings of a style may share a command; reading the command gives the first of them.
-/

namespace MathMarkup.Name

/-- A named letter or symbol. -/
structure NamedSymbol where
  name : String
  command : String
  char : Char
  deriving DecidableEq, Repr

/-- The named letters and symbols. -/
def namedSymbols : List NamedSymbol := [
  ⟨"alpha", "\\alpha", '\u03b1'⟩,
  ⟨"beta", "\\beta", '\u03b2'⟩,
  ⟨"gamma", "\\gamma", '\u03b3'⟩,
  ⟨"delta", "\\delta", '\u03b4'⟩,
  ⟨"epsilon", "\\epsilon", '\u03f5'⟩,
  ⟨"varepsilon", "\\varepsilon", '\u03b5'⟩,
  ⟨"zeta", "\\zeta", '\u03b6'⟩,
  ⟨"eta", "\\eta", '\u03b7'⟩,
  ⟨"theta", "\\theta", '\u03b8'⟩,
  ⟨"vartheta", "\\vartheta", '\u03d1'⟩,
  ⟨"iota", "\\iota", '\u03b9'⟩,
  ⟨"kappa", "\\kappa", '\u03ba'⟩,
  ⟨"varkappa", "\\varkappa", '\u03f0'⟩,
  ⟨"lambda", "\\lambda", '\u03bb'⟩,
  ⟨"mu", "\\mu", '\u03bc'⟩,
  ⟨"nu", "\\nu", '\u03bd'⟩,
  ⟨"xi", "\\xi", '\u03be'⟩,
  ⟨"omicron", "\\omicron", '\u03bf'⟩,
  ⟨"pi", "\\pi", '\u03c0'⟩,
  ⟨"varpi", "\\varpi", '\u03d6'⟩,
  ⟨"rho", "\\rho", '\u03c1'⟩,
  ⟨"varrho", "\\varrho", '\u03f1'⟩,
  ⟨"sigma", "\\sigma", '\u03c3'⟩,
  ⟨"varsigma", "\\varsigma", '\u03c2'⟩,
  ⟨"tau", "\\tau", '\u03c4'⟩,
  ⟨"upsilon", "\\upsilon", '\u03c5'⟩,
  ⟨"phi", "\\phi", '\u03d5'⟩,
  ⟨"varphi", "\\varphi", '\u03c6'⟩,
  ⟨"chi", "\\chi", '\u03c7'⟩,
  ⟨"psi", "\\psi", '\u03c8'⟩,
  ⟨"omega", "\\omega", '\u03c9'⟩,
  ⟨"digamma", "\\digamma", '\u03dd'⟩,
  ⟨"Gamma", "\\Gamma", '\u0393'⟩,
  ⟨"Delta", "\\Delta", '\u0394'⟩,
  ⟨"Theta", "\\Theta", '\u0398'⟩,
  ⟨"Lambda", "\\Lambda", '\u039b'⟩,
  ⟨"Xi", "\\Xi", '\u039e'⟩,
  ⟨"Pi", "\\Pi", '\u03a0'⟩,
  ⟨"Sigma", "\\Sigma", '\u03a3'⟩,
  ⟨"Upsilon", "\\Upsilon", '\u03a5'⟩,
  ⟨"Phi", "\\Phi", '\u03a6'⟩,
  ⟨"Psi", "\\Psi", '\u03a8'⟩,
  ⟨"Omega", "\\Omega", '\u03a9'⟩,
  ⟨"Digamma", "\\Digamma", '\u03dc'⟩,
  ⟨"aleph", "\\aleph", '\u2135'⟩,
  ⟨"beth", "\\beth", '\u2136'⟩,
  ⟨"gimel", "\\gimel", '\u2137'⟩,
  ⟨"daleth", "\\daleth", '\u2138'⟩,
  ⟨"hbar", "\\hbar", '\u210f'⟩,
  ⟨"ell", "\\ell", '\u2113'⟩,
  ⟨"wp", "\\wp", '\u2118'⟩,
  ⟨"nabla", "\\nabla", '\u2207'⟩,
  ⟨"partial", "\\partial", '\u2202'⟩,
  ⟨"emptyset", "\\emptyset", '\u2205'⟩]

/-- Spelled-out digits, for names such as a doublestruck one. -/
def digitWords : List (String × String) := [
  ("zero", "0"), ("one", "1"), ("two", "2"), ("three", "3"), ("four", "4"), ("five", "5"),
  ("six", "6"), ("seven", "7"), ("eight", "8"), ("nine", "9"), ("ten", "10")]

/-- Spelled-out symbols that look like operators. -/
def symbolWords : List (String × String) := [
  ("plus", "+"), ("minus", "-"), ("pm", "\\pm"), ("ast", "\\ast"),
  ("dag", "\\dag"), ("ddag", "\\ddag"), ("hash", "\\#"), ("bottom", "\\bot"),
  ("top", "\\top"), ("bullet", "\\bullet"), ("circle", "\\circ"), ("diamond", "\\diamond"),
  ("times", "\\times"), ("square", "\\square"), ("star", "\\star")]

/-- Where an accent goes. -/
inductive Placement where
  /-- Around its base, as a command with an argument. -/
  | wrap
  /-- After its base. -/
  | after
  deriving DecidableEq, Repr

/-- An accent on a base. -/
structure Accent where
  name : String
  markup : String
  placement : Placement
  deriving DecidableEq, Repr

/-- The accents. -/
def accents : List Accent := [
  ⟨"deg", "\\degree", .after⟩,
  ⟨"prime", "^\x7b\\prime\x7d", .after⟩,
  ⟨"dprime", "^\x7b\\doubleprime\x7d", .after⟩,
  ⟨"ring", "\\mathring", .wrap⟩,
  ⟨"hat", "\\hat", .wrap⟩,
  ⟨"tilde", "\\tilde", .wrap⟩,
  ⟨"vec", "\\vec", .wrap⟩,
  ⟨"bar", "\\overline", .wrap⟩,
  ⟨"underbar", "\\underline", .wrap⟩,
  ⟨"dot", "\\dot", .wrap⟩,
  ⟨"ddot", "\\ddot", .wrap⟩,
  ⟨"tdot", "\\dddot", .wrap⟩,
  ⟨"qdot", "\\ddddot", .wrap⟩,
  ⟨"acute", "\\acute", .wrap⟩,
  ⟨"grave", "\\grave", .wrap⟩,
  ⟨"breve", "\\breve", .wrap⟩,
  ⟨"check", "\\check", .wrap⟩]

/-- A typeface for a base. -/
structure Typeface where
  name : String
  command : String
  deriving DecidableEq, Repr

/-- The typefaces; of two spellings of a command the first is the one that reading gives. -/
def typefaces : List Typeface := [
  ⟨"upright", "\\mathrm"⟩,
  ⟨"italic", "\\mathit"⟩,
  ⟨"bold", "\\mathbf"⟩,
  ⟨"script", "\\mathscr"⟩,
  ⟨"fraktur", "\\mathfrak"⟩,
  ⟨"doublestruck", "\\mathbb"⟩,
  ⟨"blackboard", "\\mathbb"⟩,
  ⟨"calligraphic", "\\mathcal"⟩,
  ⟨"gothic", "\\mathfrak"⟩,
  ⟨"sansSerif", "\\mathsf"⟩,
  ⟨"monospace", "\\mathtt"⟩]

/-- The characters written with a backslash inside an upright name. -/
def escapedChars : List Char := ['_', '{', '}', '#', '&', '%', '$', ' ']

/-- The symbol with a name. -/
def symbolNamed? (name : String) : Option NamedSymbol :=
  namedSymbols.find? (·.name == name)

/-- The symbol that a command writes. -/
def symbolOfCommand? (command : String) : Option NamedSymbol :=
  namedSymbols.find? (·.command == command)

/-- The symbol that a character is. -/
def symbolOfChar? (c : Char) : Option NamedSymbol :=
  namedSymbols.find? (·.char == c)

/-- The accent with a name. -/
def accentNamed? (name : String) : Option Accent :=
  accents.find? (·.name == name)

/-- The accent that a command puts on its argument. -/
def accentOfCommand? (command : String) : Option Accent :=
  accents.find? fun a => a.placement == .wrap && a.markup == command

/-- The typeface with a name. -/
def typefaceNamed? (name : String) : Option Typeface :=
  typefaces.find? (·.name == name)

/-- The typeface that a command sets its argument in. -/
def typefaceOfCommand? (command : String) : Option Typeface :=
  typefaces.find? (·.command == command)

/-- Whether a text is markup of its own: characters that are neither ASCII nor word characters nor
known symbols. Such a name is written as it stands. -/
def isVerbatim (name : String) : Bool :=
  !name.isEmpty &&
    name.toList.all fun c => 0x80 ≤ c.toNat && !isWordChar c && (symbolOfChar? c).isNone

end MathMarkup.Name
