import MathMarkup.Name.Decode
import MathMarkup.Parser.Numeral
import MathMarkup.Parser.Operator

/-!
# Primary expressions and nesting

What an expression can start with: a numeral, a group, a text command, delimiters, an environment,
a prefix operator, and last a symbol or function. Each alternative that does not work out leaves
the cursor where it was, and the next one is tried.

`Nested.atDepth` ties the knot of the readers. Each level counts itself in the state of the parse
and takes from the levels that are left; at the limit the input is marked as too deep, and from
then on nothing more is read.
-/

namespace MathMarkup
namespace Parser

/-- The text that an escape behind a backslash stands for, and the rest. -/
def textEscape? (cs : List Char) : Option (Char × List Char) :=
  let name := "textbackslash".toList
  if name.isPrefixOf cs then
    let rest := cs.drop name.length
    some ('\\', if ['{', '}'].isPrefixOf rest then rest.drop 2 else rest)
  else
    match cs with
    | c :: rest => if ['{', '}', '_', '%', '$', '#', '&'].contains c then some (c, rest) else none
    | [] => none

theorem length_textEscape? {cs rest : List Char} {c : Char}
    (h : textEscape? cs = some (c, rest)) : rest.length ≤ cs.length := by
  simp only [textEscape?] at h
  split at h
  · simp only [Option.some.injEq, Prod.mk.injEq] at h
    obtain ⟨-, rfl⟩ := h
    split <;> simp only [List.length_drop] <;> omega
  · split at h
    · split at h
      · simp only [Option.some.injEq, Prod.mk.injEq] at h
        obtain ⟨-, rfl⟩ := h
        simp
      · simp at h
    · simp at h

/-- Undoes the escapes in verbatim text. A backslash that escapes nothing stands for itself. -/
def unescapeText (cs : List Char) : List Char :=
  match cs with
  | [] => []
  | c :: cs =>
    if c = '\\' then
      match _h : textEscape? cs with
      | some (d, rest) => d :: unescapeText rest
      | none => '\\' :: unescapeText cs
    else c :: unescapeText cs
termination_by cs.length
decreasing_by
  all_goals
    try have := length_textEscape? _h
    simp only [List.length_cons]
    omega

/-- Consumes a verbatim text; there is none between adjoining braces. -/
def textToken : Reading String := do
  match ← Reading.peek with
  | some t =>
    if t.kind = .text then
      Reading.advance 1
      return t.raw
    else return ""
  | none => return ""

/-- Reads a text command and its argument, a string literal. -/
def text : Reading Expr := do
  Reading.advance 1
  let start ← Reading.index
  if ← Reading.matchToken "\x7b" then
    let text ← textToken
    if ← Reading.matchCloseGroup then
      return .string (String.ofList (unescapeText text.toList))
    else Reading.error .expectedClosingDelimiter none start
  else return .string ""

/-- The body before a close delimiter, itself absent between adjoining delimiters, or nothing if the
close delimiter does not come. -/
def delimited (inner : Nested) (close : List String) : Reading (Option (Option Expr)) := do
  if ← Reading.matchTokens close then return some none
  else
    let body ← inner.expression .loosest
    if ← Reading.matchTokens close then return some body else return none

/-- Reads the rest of an expression between delimiters, given an entry whose open delimiter comes
next. -/
def tryMatchfix (inner : Nested) (candidate : Nat × IndexedEntry) : Reading (Option Expr) :=
  Reading.rewinding do
    let (length, entry) := candidate
    match entry.role.close? with
    | none => return none
    | some close =>
      Reading.advance length
      match ← delimited inner close with
      | none => return none
      | some body =>
        match entry.parse with
        | some handler => runHandler inner handler body .loosest
        | none => return some (.apply entry.head (Expr.splat body))

/-- Reads an expression between delimiters. -/
def matchfix (ix : Index) (inner : Nested) : Reading (Option Expr) := do
  Reading.firstOf (tryMatchfix inner) (ix.lookup .matchfix (← Reading.upcoming))

/-- The rest of an environment's name, and how many tokens it takes with its closing brace. -/
def environmentNameFrom (name : String) : List Token → Option String × Nat
  | [] => (none, 0)
  | t :: ts =>
    match t.kind with
    | .closeGroup => (some name, 1)
    | .openGroup => (none, 1)
    | _ =>
      let r := environmentNameFrom (name ++ t.raw) ts
      (r.1, r.2 + 1)

/-- An environment's name in braces, and how many tokens were looked at. -/
def environmentName : List Token → Option String × Nat
  | [] => (none, 0)
  | t :: ts =>
    if t.raw = "\x7b" then
      let r := environmentNameFrom "" ts
      (r.1, r.2 + 1)
    else (none, 0)

/-- Consumes an environment's name as far as it goes. -/
def takeEnvironmentName : Reading (Option String) := do
  let (name, length) := environmentName (← get).ahead
  Reading.advance length
  return name

/-- The cells of an environment read so far. -/
structure Tabular where
  rows : List (List (Option Expr)) := []
  row : List (Option Expr) := []
  cell : Option Expr := none

namespace Tabular

/-- Ends a cell. -/
def endCell (t : Tabular) : Tabular :=
  { t with row := t.row ++ [t.cell], cell := none }

/-- Ends a row. -/
def endRow (t : Tabular) : Tabular :=
  { rows := t.rows ++ [t.row ++ [t.cell]], row := [], cell := none }

/-- All rows; a last one that is empty does not count. -/
def allRows (t : Tabular) : List (List (Option Expr)) :=
  match t.row, t.cell with
  | [], none => t.rows
  | row, cell => t.rows ++ [row ++ [cell]]

/-- The cells as a list of lists. -/
def toExpr (t : Tabular) : Expr :=
  .apply "List" (t.allRows.map fun row =>
    .apply "List" (row.map fun cell => cell.getD (.sequence [])))

end Tabular

/-- Reads a token that cannot be part of a cell as an error in it. -/
def unexpectedInCell (t : Tabular) : Reading Tabular := do
  let start ← Reading.index
  Reading.advance 1
  let error ← Reading.error .unexpectedToken none start
  return { t with cell := some (appendError t.cell error) }

/-- One separator, expression or unexpected token of an environment, and whether the environment
goes on. -/
def tabularStep (inner : Nested) (t : Tabular) : Reading (Tabular × Bool) := do
  match ← Reading.peek with
  | none => return (t, false)
  | some token =>
    if token = ⟨"&", .char⟩ then
      Reading.advance 1
      return (t.endCell, true)
    else if token = ⟨"\\\\", .command⟩ then
      Reading.advance 1
      return (t.endRow, true)
    else if token = ⟨"\\end", .command⟩ then
      Reading.advance 1
      let _ ← takeEnvironmentName
      return (t, false)
    else
      match t.cell with
      | some _ => return (← unexpectedInCell t, true)
      | none =>
        match ← inner.expression .loosest with
        | some e => return ({ t with cell := some e }, true)
        | none => return (← unexpectedInCell t, true)

/-- Reads the cells of an environment up to its end command or the end of the input. -/
def tabular (inner : Nested) : Reading Tabular :=
  Reading.loop (tabularStep inner) {}

/-- What an environment entry makes of the cells. -/
def tryEnvironment (inner : Nested) (cells : Expr) (entry : IndexedEntry) :
    Reading (Option Expr) :=
  match entry.parse with
  | some handler => Reading.rewinding (runHandler inner handler (some cells) .loosest)
  | none => return some (.apply entry.head [cells])

/-- Reads an environment from its begin command on. -/
def environment (ix : Index) (inner : Nested) : Reading (Option Expr) :=
  Reading.rewinding do
    Reading.advance 1
    match ← takeEnvironmentName with
    | none => return none
    | some name =>
      match ix.environments name with
      | [] => return none
      | entries =>
        let cells := (← tabular inner).toExpr
        Reading.firstOf (tryEnvironment inner cells) entries

/-- Applies a prefix operator to the operand that follows. -/
def tryPrefixOp (inner : Nested) (min : Precedence) (candidate : Nat × IndexedEntry) :
    Reading (Option Expr) := do
  let (length, entry) := candidate
  match entry.precedence? with
  | none => return none
  | some p =>
    Reading.rewinding do
      Reading.advance length
      let operandPrecedence := p.tighter.tighterOf min
      match entry.parse with
      | some handler => runHandler inner handler none operandPrecedence
      | none =>
        let operand ← inner.expression operandPrecedence
        return some (.apply entry.head [operand.getD Expr.missing])

/-- Reads a prefix operator and its operand. -/
def prefixOperation (ix : Index) (inner : Nested) (min : Precedence) :
    Reading (Option Expr) := do
  Reading.firstOf (tryPrefixOp inner min) (ix.lookup .prefixOp (← Reading.upcoming))

/-- The precedence of the argument of a function without parentheses, tighter than products. -/
def argumentPrecedence : Precedence := 391

/-- Reads the arguments of a function: in parentheses, or a single tight one, or none, which leaves
the name of the function as a symbol. -/
def functionArguments (inner : Nested) (head : String) : Reading Expr := do
  match ← argumentList inner with
  | some arguments => return .apply head arguments
  | none =>
    match ← inner.expression argumentPrecedence with
    | some argument => return .apply head [argument]
    | none => return .symbol head

/-- Reads a symbol or function, given an entry whose trigger comes next. -/
def trySymbol (inner : Nested) (candidate : Nat × IndexedEntry) : Reading (Option Expr) :=
  Reading.rewinding do
    let (length, entry) := candidate
    Reading.advance length
    match entry.parse with
    | some handler => runHandler inner handler none .loosest
    | none =>
      if entry.role = .function then return some (← functionArguments inner entry.head)
      else return some (.symbol entry.head)

/-- The name of a function from the name of an upright symbol. -/
def functionName (name : String) : String :=
  let suffix := "_upright".toList
  if suffix.isSuffixOf name.toList then
    String.ofList (name.toList.take (name.toList.length - suffix.length))
  else name

/-- Reads a name that no entry knows. An upright name before a parenthesis is a function. -/
def namedSymbol (inner : Nested) : Reading (Option Expr) := do
  let tokens := (← get).ahead
  match Name.identifier? tokens with
  | none => return none
  | some (name, length) =>
    Reading.advance length
    if tokens.head?.any fun t => Name.isUpright t.raw then
      match ← argumentList inner with
      | some arguments => return some (.apply (functionName name) arguments)
      | none => return some (.symbol name)
    else return some (.symbol name)

/-- Reads a symbol or function. -/
def symbol (ix : Index) (inner : Nested) : Reading (Option Expr) := do
  match ← Reading.firstOf (trySymbol inner) (ix.lookup .identifier (← Reading.upcoming)) with
  | some e => return some e
  | none => namedSymbol inner

/-- Reads what begins with a token that is not a number. -/
def primaryFrom (ix : Index) (inner : Nested) (min : Precedence) (t : Token) :
    Reading (Option Expr) := do
  if t.kind = .openGroup then return some (← braceGroup inner)
  else if t.kind = .closeGroup then return none
  else if t.kind = .command ∧ t.raw ∈ Token.textCommands then return some (← text)
  else
    Reading.firstOf id [
      matchfix ix inner,
      if t.raw = "\\begin" then environment ix inner else return none,
      prefixOperation ix inner min,
      symbol ix inner]

/-- Reads an expression without infix and postfix operators. -/
def primary (ix : Index) (inner : Nested) (min : Precedence) : Reading (Option Expr) := do
  match ← Reading.peek with
  | none => return none
  | some t =>
    if t.kind = .number then return some (← numeral) else primaryFrom ix inner min t

end Parser

namespace Nested

/-- How many levels of nesting are allowed. -/
def maxDepth : Nat := 256

/-- Finds that the input nests too deeply. -/
def giveUp : Reading (Option Expr) := do
  modify fun p => { p with tooDeep := true }
  return none

/-- Takes a step one level deeper, unless the input nests too deeply. -/
def deeper (step : Reading (Option Expr)) : Reading (Option Expr) := do
  let p ← get
  if p.tooDeep then return none
  else if maxDepth ≤ p.depth then giveUp
  else
    modify Parser.enter
    let e ← step
    modify Parser.leave
    return e

/-- An expression: a primary one and the operators after it. -/
def operation (ix : Index) (inner : Nested) (min : Precedence) : Reading (Option Expr) := do
  match ← inner.primary min with
  | some lhs => return some (← Parser.suffixes ix inner min lhs)
  | none => return none

/-- The readers with a number of levels of nesting left. -/
def atDepth (ix : Index) : Nat → Nested
  | 0 => { expression := fun _ => giveUp, primary := fun _ => giveUp }
  | levels + 1 =>
    let inner := atDepth ix levels
    { expression := fun min => deeper (operation ix inner min)
      primary := fun min => deeper (Parser.primary ix inner min) }

/-- The readers that a parse starts with. -/
def outermost (ix : Index) : Nested :=
  atDepth ix maxDepth

end Nested
end MathMarkup
