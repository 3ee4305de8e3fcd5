import MathMarkup.Lexicon.Request
import MathMarkup.Token.Lexer
import MathMarkup.Token.Spelling

/-!
# Entries of a lexicon

A lexicon is a list of entries. An entry ties a trigger, a sequence of tokens such as `<` `=`, and
a canonical name such as `LessEqual` to a kind, a precedence and rules for parsing and rendering.
Nothing about a particular operator is built into the parser or the renderer, and later entries
override earlier ones, so a lexicon is extended by appending to it.

Entries are made by one function for each kind, which take the trigger as markup, and then refined.
-/

namespace MathMarkup

/-- How a trigger becomes an expression. -/
inductive ParseRule where
  /-- As the entry with a canonical name. -/
  | aliasOf (name : String)
  | custom (handler : ParseHandler)

/-- How a named expression becomes markup. -/
inductive RenderRule where
  /-- A template with the operands in place of `#1` and `#2`. -/
  | template (template : String)
  | custom (handler : RenderHandler)

/-- A declarative rule of a lexicon. -/
structure Entry where
  kind : Kind
  /-- The canonical name that the entry parses to and renders from. -/
  name : Option String := none
  /-- The tokens that activate the entry: the open delimiter of a matchfix entry, the name of an
  environment. -/
  trigger : List String := []
  /-- The close delimiter of a matchfix entry. -/
  closeTrigger : List String := []
  /-- Operators need one. -/
  precedence : Option Precedence := none
  associativity : Associativity := .left
  parse : Option ParseRule := none
  render : Option RenderRule := none

namespace Entry

/-- The tokens of a trigger given as markup. -/
def triggerTokens (markup : String) : List String :=
  Token.raws (Token.scan markup)

/-- An entry without a trigger. -/
def untriggered (kind : Kind) : Entry :=
  { kind }

/-- A symbol triggered by some markup. -/
def identifier (trigger : String) : Entry :=
  { kind := .identifier, trigger := triggerTokens trigger }

/-- A function triggered by some markup. -/
def function (trigger : String) : Entry :=
  { kind := .function, trigger := triggerTokens trigger }

/-- An operator before its operand. -/
def prefixOp (trigger : String) (precedence : Precedence) : Entry :=
  { kind := .prefixOp, trigger := triggerTokens trigger, precedence := some precedence }

/-- An operator between its operands that groups on the left. -/
def infixOp (trigger : String) (precedence : Precedence) : Entry :=
  { kind := .infixOp, trigger := triggerTokens trigger, precedence := some precedence }

/-- An operator after its operand. -/
def postfixOp (trigger : String) (precedence : Precedence) : Entry :=
  { kind := .postfixOp, trigger := triggerTokens trigger, precedence := some precedence }

/-- A pair of delimiters. -/
def matchfix (openTrigger closeTrigger : String) : Entry :=
  { kind := .matchfix
    trigger := triggerTokens openTrigger
    closeTrigger := triggerTokens closeTrigger }

/-- An environment; its name is one token. -/
def environment (name : String) : Entry :=
  { kind := .environment, trigger := [name] }

/-- Gives the canonical name. -/
def named (e : Entry) (name : String) : Entry :=
  { e with name := some name }

/-- Parses as the entry with another name. -/
def parseAs (e : Entry) (name : String) : Entry :=
  { e with parse := some (.aliasOf name) }

/-- Parses with a routine. -/
def parseWith (e : Entry) (handler : ParseHandler) : Entry :=
  { e with parse := some (.custom handler) }

/-- Groups on the right. -/
def right (e : Entry) : Entry :=
  { e with associativity := .right }

/-- Renders with a template. -/
def renderAs (e : Entry) (template : String) : Entry :=
  { e with render := some (.template template) }

/-- Renders with a routine. -/
def renderWith (e : Entry) (handler : RenderHandler) : Entry :=
  { e with render := some (.custom handler) }

/-- What messages call the entry: its name, or else its trigger. -/
def label (e : Entry) : String :=
  e.name.getD (join e.trigger)

end Entry
end MathMarkup
