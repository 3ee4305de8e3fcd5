import MathMarkup.Options
import MathMarkup.Routine
import MathMarkup.Token

/-!
# What routines may ask for

The custom routines of a lexicon entry talk to the parser or the renderer by requests. This module
lists them with the type of each response, so that entries can be written without either machine.
A parse routine may read further tokens and expressions and move the cursor; a render routine may
have expressions rendered and fenced, and may fail with a warning.
-/

namespace MathMarkup

/-- What a parse routine may ask of the parser. -/
inductive ParseRequest where
  /-- Where the cursor is, in tokens. -/
  | index
  /-- Moves the cursor; past the end it stops at the end. -/
  | setIndex (index : Nat)
  /-- Whether every token is consumed. -/
  | atEnd
  /-- The token at the cursor. -/
  | peek
  /-- Consumes the token at the cursor. -/
  | next
  /-- Consumes the token at the cursor if it has a raw text. -/
  | matchToken (raw : String)
  /-- Consumes the tokens at the cursor if they have some raw texts. -/
  | matchTokens (raws : List String)
  /-- The markup between two positions. -/
  | markup (start stop : Nat)
  /-- Reads a braced group. -/
  | group
  /-- Reads the argument of a command. -/
  | argument
  /-- Reads an argument in square brackets. -/
  | optionalArgument
  /-- Reads arguments in parentheses, separated by commas. -/
  | argumentList
  /-- Reads an expression whose operators bind at least as tightly as a precedence. -/
  | expression (min : Precedence)
  /-- An error node that covers the tokens from a position up to the cursor. -/
  | error (code : ErrorCode) (arg : Option String) (start : Nat)
  /-- Reports a warning. -/
  | warn (warning : Warning)
  /-- Takes the warnings reported so far. -/
  | takeWarnings

/-- What the parser answers. -/
abbrev ParseRequest.Response : ParseRequest → Type
  | .index => Nat
  | .setIndex _ => Unit
  | .atEnd => Bool
  | .peek => Option Token
  | .next => Option Token
  | .matchToken _ => Bool
  | .matchTokens _ => Bool
  | .markup _ _ => String
  | .group => Option Expr
  | .argument => Option Expr
  | .optionalArgument => Option Expr
  | .argumentList => Option (List Expr)
  | .expression _ => Option Expr
  | .error _ _ _ => Expr
  | .warn _ => Unit
  | .takeWarnings => List Warning

/-- A custom parse routine. -/
abbrev ParseRoutine := Routine ParseRequest ParseRequest.Response

/-- What an entry does after its trigger: given the left operand, the body between delimiters or
the cells of an environment, and a precedence for operands that follow, reads an expression or
declines. -/
abbrev ParseHandler := Option Expr → Precedence → ParseRoutine (Option Expr)

namespace ParseRoutine

/-- Reads an expression whose operators bind at least as tightly as a precedence. -/
def expression (min : Precedence) : ParseRoutine (Option Expr) :=
  Routine.request (ParseRequest.expression min)

/-- Reads the argument of a command. -/
def argument : ParseRoutine (Option Expr) :=
  Routine.request ParseRequest.argument

/-- Reads an argument in square brackets. -/
def optionalArgument : ParseRoutine (Option Expr) :=
  Routine.request ParseRequest.optionalArgument

/-- What was read, or the node for a missing operand. -/
def orMissing (r : ParseRoutine (Option Expr)) : ParseRoutine Expr := do
  return (← r).getD Expr.missing

end ParseRoutine

/-- What a render routine may ask of the renderer. Levels say how deeply an expression is nested. -/
inductive RenderRequest where
  /-- The rendering options. -/
  | options
  /-- Renders an expression. -/
  | render (e : Expr) (level : Nat)
  /-- Renders an operand, in fences if it binds looser than a precedence, or always. -/
  | wrap (e : Expr) (precedence : Option Precedence) (level : Nat)
  /-- Renders an operand, in fences if it does not stand out by itself. -/
  | wrapShort (e : Expr) (level : Nat)
  /-- Renders the base of a script, in fences if it needs them. -/
  | wrapBase (e : Expr) (precedence : Precedence) (level : Nat)
  /-- Renders the operands of an expression, separated by commas. -/
  | operands (e : Expr) (level : Nat)
  /-- Renders the operands of an expression in parentheses. -/
  | arguments (e : Expr) (level : Nat)
  /-- Reports a warning. -/
  | warn (warning : Warning)

/-- What the renderer answers. -/
abbrev RenderRequest.Response : RenderRequest → Type
  | .options => Options
  | .render _ _ => String
  | .wrap _ _ _ => String
  | .wrapShort _ _ => String
  | .wrapBase _ _ _ => String
  | .operands _ _ => String
  | .arguments _ _ => String
  | .warn _ => Unit

/-- A custom render routine; it may fail with a warning. -/
abbrev RenderRoutine := ExceptT Warning (Routine RenderRequest RenderRequest.Response)

/-- How an entry renders an expression at a nesting level. -/
abbrev RenderHandler := Expr → Nat → RenderRoutine String

namespace RenderRoutine

/-- Makes one request. -/
def ask (q : RenderRequest) : RenderRoutine q.Response :=
  ExceptT.lift (Routine.request q)

/-- The rendering options. -/
def options : RenderRoutine Options :=
  ask RenderRequest.options

/-- Renders an expression. -/
def render (e : Expr) (level : Nat) : RenderRoutine String :=
  ask (RenderRequest.render e level)

/-- Renders an operand, in fences if it binds looser than a precedence. -/
def wrap (e : Expr) (precedence : Precedence) (level : Nat) : RenderRoutine String :=
  ask (RenderRequest.wrap e (some precedence) level)

/-- Renders an operand, in fences if it does not stand out by itself. -/
def wrapShort (e : Expr) (level : Nat) : RenderRoutine String :=
  ask (RenderRequest.wrapShort e level)

/-- Renders the base of a script, in fences if it needs them. -/
def wrapBase (e : Expr) (precedence : Precedence) (level : Nat) : RenderRoutine String :=
  ask (RenderRequest.wrapBase e precedence level)

/-- Renders the operands of an expression, separated by commas. -/
def operands (e : Expr) (level : Nat) : RenderRoutine String :=
  ask (RenderRequest.operands e level)

/-- Renders the operands of an expression in parentheses. -/
def arguments (e : Expr) (level : Nat) : RenderRoutine String :=
  ask (RenderRequest.arguments e level)

/-- What a missing operand is rendered as. -/
def missing : RenderRoutine String := do
  return (← options).missingSymbol

end RenderRoutine
end MathMarkup
