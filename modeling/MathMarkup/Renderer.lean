import MathMarkup.Lexicon.Index
import MathMarkup.Name.Encode
import MathMarkup.Numeral
import MathMarkup.Template

/-!
# Rendering expressions

A renderer turns any expression into markup, driven by the index of a lexicon. It never fails:
what has no rendering is reported and rendered as best we can, or as nothing. An operand gets
fences when it binds looser than its place allows, which is how the structure of the expression
survives in the markup.

Every function here that renders operands takes the renderer for them as an argument. `render`
ties the knot: it hands each node a renderer that accepts smaller expressions only, so a custom
routine that asks for the rendering of its own expression gets nothing for it and rendering always
ends.
-/

namespace MathMarkup

/-- A rendering in progress, with the warnings reported so far in order. -/
abbrev Rendering := StateM (List Warning)

/-- Reports a warning. -/
def Rendering.report (w : Warning) : Rendering Unit :=
  modify (· ++ [w])

/-- What an expression is rendered with. -/
structure Renderer where
  options : Options
  index : Index
  /-- Whether the markup of annotations is ignored. -/
  canonical : Bool := false

/-- What renders an expression at a nesting level. -/
abbrev RenderNode := Expr → Nat → Rendering String

namespace Renderer

/-- Puts fences around the markup of an expression. -/
def fence (r : Renderer) (e : Expr) (markup : String) (level : Nat) : String :=
  (r.options.groupStyle e level).wrap markup

/-- How tightly the operator with a head binds. -/
def precedenceOf? (r : Renderer) (head : String) : Option Precedence :=
  (r.index.byName? head).bind IndexedEntry.precedence?

/-- Whether an expression binds looser than a precedence. A negative number binds like a negation;
delimiters and subscripts bind tightly whatever their precedence. -/
def bindsLooser (r : Renderer) (e : Expr) (markup : String) (p : Precedence) : Bool :=
  match e.strip with
  | .number _ =>
    markup.toList.head? == some '-' &&
      match r.precedenceOf? "Negate" with
      | some negate => negate < p
      | none => true
  | .apply head _ =>
    if head = "Delimiter" ∨ head = "Subscript" then false
    else
      match r.precedenceOf? head with
      | some own => own < p
      | none => false
  | _ => false

/-- Whether an expression does not stand out by itself: sums, differences, negations, products and
numbers other than non-negative integers. -/
def isShortFenced (e : Expr) : Bool :=
  match e.strip with
  | .apply head _ =>
    ["Add", "Subtract", "Negate", "PlusMinus", "Multiply"].contains head
  | .number text => !text.toList.all Char.isDigit
  | _ => false

/-- The operands of an expression, separated by commas. -/
def operands (node : RenderNode) (e : Expr) (level : Nat) : Rendering String := do
  return ", ".intercalate (← e.operands.mapM fun o => node o (level + 1))

/-- An operand, in fences if it binds looser than a precedence, or always. -/
def wrap (r : Renderer) (node : RenderNode) (e : Expr) (p : Option Precedence) (level : Nat) :
    Rendering String := do
  let markup ← node e level
  let fenced := match p with
    | some p => r.bindsLooser e markup p
    | none => true
  return if fenced then r.fence e markup level else markup

/-- An operand, in fences if it does not stand out by itself. -/
def wrapShort (r : Renderer) (node : RenderNode) (e : Expr) (level : Nat) :
    Rendering String := do
  let markup ← node e level
  return if isShortFenced e then r.fence e markup level else markup

/-- The base of a script, in fences if it does not stand out by itself or binds no tighter than the
script. -/
def wrapBase (r : Renderer) (node : RenderNode) (e : Expr) (p : Precedence) (level : Nat) :
    Rendering String := do
  let markup ← node e level
  return if isShortFenced e || r.bindsLooser e markup p.tighter then r.fence e markup level
    else markup

/-- The operands of an expression as the arguments of a function. -/
def arguments (r : Renderer) (node : RenderNode) (e : Expr) (level : Nat) :
    Rendering String := do
  return (r.options.applyFunctionStyle e level).wrap (← operands node e level)

/-- Answers the requests of render routines. -/
def answer (r : Renderer) (node : RenderNode) : (q : RenderRequest) → Rendering q.Response
  | .options => pure r.options
  | .render e level => node e level
  | .wrap e p level => r.wrap node e p level
  | .wrapShort e level => r.wrapShort node e level
  | .wrapBase e p level => r.wrapBase node e p level
  | .operands e level => operands node e level
  | .arguments e level => r.arguments node e level
  | .warn w => Rendering.report w

/-- Runs a render routine. A failure is reported and renders as nothing. -/
def runHandler (r : Renderer) (node : RenderNode) (handler : RenderHandler) (e : Expr)
    (level : Nat) : Rendering String := do
  match ← (handler e level).run.run (r.answer node) with
  | .ok markup => return markup
  | .error w =>
    Rendering.report w
    return ""

/-- A symbol: as its entry says if it has one for a symbol, else by its name. -/
def symbol (r : Renderer) (node : RenderNode) (e : Expr) (name : String) (level : Nat) :
    Rendering String :=
  match r.index.byName? name with
  | some entry =>
    if entry.role == .identifier || entry.role == .function then
      match entry.render with
      | some handler => r.runHandler node handler e level
      | none => return entry.template
    else return Name.encode name .auto
  | none => return Name.encode name .auto

/-- A row of a table for each entry. -/
def table (node : RenderNode) (entries : List (String × Expr)) (level : Nat) :
    Rendering String := do
  let rows ← entries.mapM fun (key, value) => do
    let value ← node value (level + 1)
    return "\\textbf\x7b" ++ key ++ "\x7d & \\rightarrow & " ++ value
  return "\\left\\lbrack\\begin\x7barray\x7d\x7blll\x7d" ++ "\\\\".intercalate rows ++
    "\\end\x7barray\x7d\\right\\rbrack"

/-- An operator before or after its only operand. -/
def unaryOperator (r : Renderer) (node : RenderNode) (e : Expr) (entry : IndexedEntry)
    (p : Precedence) (level : Nat) : Rendering String := do
  if e.operands.length ≠ 1 then
    Rendering.report (.operandCount entry.head 1 e.operands.length)
  let operand ← match e.operands with
    | o :: _ => r.wrap node o (some p) (level + 1)
    | [] => pure r.options.missingSymbol
  return Template.fill entry.template [operand]

/-- An operator between operands, applied from the left. The operand on the side that the operator
does not group on is held to a tighter precedence. -/
def infixOperator (r : Renderer) (node : RenderNode) (e : Expr) (entry : IndexedEntry)
    (p : Precedence) (level : Nat) : Rendering String := do
  let (firstPrecedence, restPrecedence) := match entry.role.associativity with
    | .left => (p, p.tighter)
    | .right => (p.tighter, p)
  if e.operands.length < 2 then
    Rendering.report (.operandCount entry.head 2 e.operands.length)
  match e.operands with
  | [] => return Template.fill entry.template [r.options.missingSymbol, r.options.missingSymbol]
  | first :: rest =>
    let first ← r.wrap node first (some firstPrecedence) (level + 1)
    if rest.isEmpty then return Template.fill entry.template [first, r.options.missingSymbol]
    else
      rest.foldlM (fun markup o => do
        let operand ← r.wrap node o (some restPrecedence) (level + 1)
        return Template.fill entry.template [markup, operand]) first

/-- An operator with its template. What is no operator is its template as it stands. -/
def operator (r : Renderer) (node : RenderNode) (e : Expr) (entry : IndexedEntry)
    (level : Nat) : Rendering String :=
  match entry.role with
  | .prefixOp p => r.unaryOperator node e entry p.tighter level
  | .postfixOp p => r.unaryOperator node e entry p level
  | .infixOp p _ => r.infixOperator node e entry p level
  | _ => return entry.template

/-- An environment around the cells of a list of rows. -/
def environment (node : RenderNode) (e : Expr) (entry : IndexedEntry) (level : Nat) :
    Rendering String := do
  let name := String.join entry.trigger
  let rows := ((e.operand? 1).map Expr.operands).getD []
  let rows ← rows.mapM fun row => do
    return " & ".intercalate (← row.operands.mapM fun cell => node cell (level + 1))
  return "\\begin\x7b" ++ name ++ "\x7d" ++ "\\\\".intercalate rows ++
    "\\end\x7b" ++ name ++ "\x7d"

/-- An application of a head without an entry: a command with braced arguments, an upright function
name, or else a general application. -/
def unknownApplication (r : Renderer) (node : RenderNode) (e : Expr) (head : String)
    (level : Nat) : Rendering String := do
  if head.toList.head? == some '\\' then
    let arguments ← e.operands.mapM fun o => node o (level + 1)
    return head ++ String.join (arguments.map Name.braced)
  else if !head.isEmpty && head.toList.all fun c => isWordChar c || c == '_' then
    return join [Name.encode head .upright, ← r.arguments node e level]
  else
    Rendering.report (.unserializable ("function head `" ++ head ++ "`"))
    let operands ← e.operands.mapM fun o => node o (level + 1)
    return "\\operatorname\x7bapply\x7d(" ++
      ", ".intercalate (("\\text" ++ Name.braced head) :: operands) ++ ")"

/-- An application: as the entry of its head says if it has one. -/
def application (r : Renderer) (node : RenderNode) (e : Expr) (head : String) (level : Nat) :
    Rendering String :=
  match r.index.byName? head with
  | none => r.unknownApplication node e head level
  | some entry =>
    match entry.render, entry.role with
    | some handler, _ => r.runHandler node handler e level
    | none, .matchfix _ => do
      return Template.fill entry.template [← operands node e level]
    | none, .environment => environment node e entry level
    | none, .identifier | none, .function =>
      if e.operands.isEmpty then return entry.template
      else do return join [entry.template, ← r.arguments node e level]
    | none, _ => r.operator node e entry level

/-- Escapes the characters that would end a text argument or change its structure. -/
def escapeText (text : String) : String :=
  String.join (text.toList.map fun c =>
    if c == '{' then "\\\x7b" else if c == '}' then "\\\x7d"
    else if c == '\\' then "\\textbackslash\x7b\x7d" else String.ofList [c])

/-- A number; one that is no numeral is reported and renders as nothing. -/
def number (r : Renderer) (text : String) : Rendering String :=
  match Numeral.render text r.options.number with
  | .ok markup => return markup
  | .error w => do
    Rendering.report w
    return ""

/-- One node, given what renders its parts. -/
def renderNode (r : Renderer) (node : RenderNode) (e : Expr) (level : Nat) : Rendering String :=
  match e with
  | .annotated markup inner =>
    if r.canonical || markup.isEmpty then node inner level else return markup
  | .number text => r.number text
  | .string value => return "\\text" ++ Name.braced (escapeText value)
  | .symbol name => r.symbol node e name level
  | .table entries => table node entries level
  | .apply head _ => r.application node e head level

/-- Renders an expression at a nesting level. -/
def render (r : Renderer) (e : Expr) (level : Nat) : Rendering String :=
  r.renderNode
    (fun target l => if _h : target.size < e.size then r.render target l else return "") e level
termination_by e.size

end Renderer
end MathMarkup
