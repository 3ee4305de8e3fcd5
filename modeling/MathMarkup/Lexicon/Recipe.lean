import MathMarkup.Lexicon.Entry

/-!
# Recipes

Custom routines as data, for lexicons that come from a configuration. A parse recipe reads operands
step by step and applies a head to them; each step says what to do when there is nothing to read.
A render recipe joins fragments: literal markup and operands rendered in some way.
-/

namespace MathMarkup

/-- What a step of a parse recipe reads. -/
inductive ParseAction where
  | group
  | argument
  | optionalArgument
  /-- An expression at the precedence that the routine is called with. -/
  | expression
  /-- An expression at the loosest precedence. -/
  | anyExpression
  | argumentList
  /-- One token, as a string literal. -/
  | token
  /-- Reads nothing and reports a warning. -/
  | warn
  /-- Never reads anything. -/
  | decline
  deriving DecidableEq, Repr

/-- What happens when a step has nothing to read. -/
inductive WhenAbsent where
  /-- The routine declines. -/
  | decline
  | skip
  /-- The node for a missing operand takes its place. -/
  | missing
  deriving DecidableEq, Repr

/-- A step of a parse recipe. -/
structure ParseStep where
  action : ParseAction
  whenAbsent : WhenAbsent
  deriving DecidableEq, Repr

/-- A parse routine as data. -/
structure ParseRecipe where
  head : String
  steps : List ParseStep
  deriving DecidableEq, Repr

namespace ParseStep

/-- The actions by name. -/
def actions : List (String × ParseAction) := [
  ("group", .group), ("argument", .argument), ("optional", .optionalArgument),
  ("expression", .expression), ("expression0", .anyExpression), ("arglist", .argumentList),
  ("token", .token), ("warn", .warn)]

/-- The step that a name stands for: an action, with a question mark to skip it or an exclamation
mark to report a missing operand. Other names stand for a step that never reads anything. -/
def ofName (name : String) : ParseStep :=
  let cs := name.toList
  let (cs, whenAbsent) := match cs.getLast? with
    | some '?' => (cs.dropLast, WhenAbsent.skip)
    | some '!' => (cs.dropLast, .missing)
    | _ => (cs, .decline)
  ⟨(actions.lookup (String.ofList cs)).getD .decline, whenAbsent⟩

end ParseStep

namespace ParseRecipe

/-- The operands that an action reads. -/
def read (head : String) (p : Precedence) : ParseAction → ParseRoutine (Option (List Expr))
  | .group => do return (← Routine.request ParseRequest.group).map ([·])
  | .argument => do return (← ParseRoutine.argument).map ([·])
  | .optionalArgument => do return (← ParseRoutine.optionalArgument).map ([·])
  | .expression => do return (← ParseRoutine.expression p).map ([·])
  | .anyExpression => do return (← ParseRoutine.expression .loosest).map ([·])
  | .argumentList => Routine.request ParseRequest.argumentList
  | .token => do return (← Routine.request ParseRequest.next).map fun t => [.string t.raw]
  | .warn => do
    let _ ← Routine.request (ParseRequest.warn (.unserializable head))
    return some []
  | .decline => return none

/-- Takes the remaining steps after some operands. -/
def readSteps (head : String) (p : Precedence) (operands : List Expr) :
    List ParseStep → ParseRoutine (Option Expr)
  | [] => return some (.apply head operands)
  | step :: steps => do
    match ← read head p step.action, step.whenAbsent with
    | some more, _ => readSteps head p (operands ++ more) steps
    | none, .skip => readSteps head p operands steps
    | none, .missing => readSteps head p (operands ++ [Expr.missing]) steps
    | none, .decline => return none

/-- The routine of a recipe. What the routine is called with is the first operand. -/
def handler (recipe : ParseRecipe) : ParseHandler := fun lhs p =>
  readSteps recipe.head p lhs.toList recipe.steps

end ParseRecipe

/-- How an operand is rendered. -/
inductive RenderManner where
  | plain
  /-- In fences if it binds looser than the given precedence, or always. -/
  | wrap
  /-- In fences if it does not stand out. -/
  | short
  /-- As the base of a script. -/
  | base
  /-- Only its operands, separated by commas. -/
  | operands
  /-- Only its operands, as arguments. -/
  | arguments
  deriving DecidableEq, Repr

/-- A fragment of a render recipe. -/
inductive RenderPart where
  | literal (markup : String)
  /-- The routine fails. -/
  | fail (what : String)
  /-- An operand by its number from 1, or the whole expression. -/
  | operand (number : Option Nat) (manner : RenderManner) (precedence : Option Precedence)
  deriving DecidableEq, Repr

/-- A render routine as data. -/
structure RenderRecipe where
  parts : List RenderPart
  deriving DecidableEq, Repr

namespace RenderRecipe

/-- Renders an expression in some manner. -/
def renderTarget (target : Expr) (manner : RenderManner) (p : Option Precedence) (level : Nat) :
    RenderRoutine String :=
  match manner with
  | .plain => RenderRoutine.render target (level + 1)
  | .wrap => RenderRoutine.ask (RenderRequest.wrap target p (level + 1))
  | .short => RenderRoutine.wrapShort target (level + 1)
  | .base => RenderRoutine.wrapBase target (p.getD .loosest) (level + 1)
  | .operands => RenderRoutine.operands target level
  | .arguments => RenderRoutine.arguments target level

/-- Renders one fragment. -/
def renderPart (e : Expr) (level : Nat) : RenderPart → RenderRoutine String
  | .literal markup => return markup
  | .fail what => throw (.unserializable what)
  | .operand none manner p => renderTarget e manner p level
  | .operand (some n) manner p =>
    match e.operand? n with
    | some o => renderTarget o manner p level
    | none => RenderRoutine.missing

/-- The routine of a recipe. -/
def handler (recipe : RenderRecipe) : RenderHandler := fun e level => do
  return join (← recipe.parts.mapM (renderPart e level))

end RenderRecipe
end MathMarkup
