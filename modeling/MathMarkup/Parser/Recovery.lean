import MathMarkup.Parser.Primary

/-!
# Parsing to the end

A parse consumes every token. Where an expression ends before the input does, `recover` consumes
at least one more token and folds an error node into what was read: a dangling operator gets a
placeholder for its left operand, a stray identifier or delimiter is set aside, and anything else
takes the rest of the input with it. Input that nests too deeply ends in a syntax error.
-/

namespace MathMarkup.Parser

/-- Puts what a dangling operator was read as behind the errors before it. -/
def appendAfterErrors (errors : Option Expr) (e : Expr) : Expr :=
  match errors with
  | none => e
  | some (.apply head operands) => .apply head (operands ++ [e])
  | some errors => .sequence [errors, e]

/-- What was read before a dangling operator, as errors to keep and a left operand. -/
def danglingOperand (lhs : Option Expr) : Option Expr × Expr :=
  match lhs with
  | some e => if isErroredSequence e then (some e, Expr.missing) else (none, e)
  | none => (none, Expr.missing)

/-- Applies a dangling operator whose trigger was read. A routine that declines is passed over. -/
def applyDangling (inner : Nested) (entry : IndexedEntry) (left : Expr) (p : Precedence) :
    Reading Expr := do
  let start ← Reading.index
  match ← applyOperator inner entry left p with
  | some e => return e
  | none =>
    Reading.seek start
    infixApplication inner entry left p.tighter

/-- Reads an infix operator that stopped the parse. What was read before it is its left operand,
unless that already holds errors. -/
def recoverOperator (ix : Index) (inner : Nested) (length : Nat) (entry : IndexedEntry)
    (lhs : Option Expr) : Reading Expr := do
  let (errors, left) := danglingOperand lhs
  Reading.advance length
  let combined ← applyDangling inner entry left (entry.precedence?.getD .loosest)
  return appendAfterErrors errors (← suffixes ix inner .loosest combined)

/-- The length of a symbol or function at the start of some tokens. -/
def symbolLength? (ix : Index) (tokens : List Token) : Option Nat :=
  match ix.lookup .identifier (Token.raws tokens) with
  | (length, _) :: _ => some length
  | [] => (Name.identifier? tokens).map (·.2)

/-- The length of an open delimiter at the start of some tokens, with its close delimiter. -/
def openDelimiter? (ix : Index) (tokens : List Token) : Option (Nat × List String) :=
  match ix.lookup .matchfix (Token.raws tokens) with
  | (length, entry) :: _ => entry.role.close?.map (length, ·)
  | [] =>
    match tokens with
    | t :: _ => if t.kind = .openGroup then some (1, ["\x7d"]) else none
    | [] => none

/-- The length of a close delimiter at the start of some tokens. -/
def closeDelimiter? (ix : Index) (tokens : List Token) : Option Nat :=
  match tokens with
  | [] => none
  | t :: _ => if t.kind = .closeGroup then some 1 else ix.matchClose? (Token.raws tokens)

/-- Sets some tokens aside as an error. -/
def recoverTokens (code : ErrorCode) (length : Nat) (lhs : Option Expr) : Reading Expr := do
  let start ← Reading.index
  Reading.advance length
  return appendError lhs (← Reading.error code none start)

/-- Sets a delimiter that is never closed aside, with what follows it. -/
def recoverDelimiter (inner : Nested) (length : Nat) (close : List String) (lhs : Option Expr) :
    Reading Expr := do
  let start ← Reading.index
  Reading.advance length
  let _ ← inner.expression .loosest
  let _ ← Reading.matchTokens close
  return appendError lhs (← Reading.error .unexpectedOpenDelimiter none start)

/-- What to call a token that nothing begins with. -/
def unexpected (first : Option Token) : ErrorCode × Option String :=
  match first with
  | some t => if t.kind = .command then (.unexpectedCommand, some t.raw) else (.unexpectedToken, none)
  | none => (.unexpectedToken, none)

/-- Sets the rest of the input aside. -/
def discardRest (lhs : Option Expr) : Reading Expr := do
  let start ← Reading.index
  let (code, arg) := unexpected (← Reading.peek)
  modify Parser.seekEnd
  return appendError lhs (← Reading.error code arg start)

/-- Consumes at least one token that stopped the parse. -/
def recover (ix : Index) (inner : Nested) (lhs : Option Expr) : Reading Expr := do
  let tokens := (← get).ahead
  match ix.lookup .infixOp (Token.raws tokens) with
  | (length, entry) :: _ => recoverOperator ix inner length entry lhs
  | [] =>
    match symbolLength? ix tokens, openDelimiter? ix tokens, closeDelimiter? ix tokens with
    | some length, _, _ => recoverTokens .unexpectedIdentifier length lhs
    | none, some (length, close), _ => recoverDelimiter inner length close lhs
    | none, none, some length => recoverTokens .expectedOpenDelimiter length lhs
    | none, none, none => discardRest lhs

/-- Recovers once, unless every token is consumed or the input nests too deeply. -/
def recoveryRound (ix : Index) (inner : Nested) (lhs : Option Expr) :
    Reading (Option Expr × Bool) := do
  let p ← get
  if p.ahead.isEmpty || p.tooDeep then return (lhs, false)
  else return (some (← recover ix inner lhs), true)

/-- Recovers until every token is consumed or the input nests too deeply. -/
def recoverAll (ix : Index) (inner : Nested) (lhs : Option Expr) : Reading (Option Expr) :=
  Reading.loop (recoveryRound ix inner) lhs

/-- Parses every token. -/
def parseAll (ix : Index) : Reading Expr := do
  let inner := Nested.outermost ix
  let first ← inner.expression .loosest
  let all ← recoverAll ix inner first
  if (← get).tooDeep then
    let start ← Reading.index
    modify Parser.seekEnd
    return appendError all (← Reading.error .syntaxError none start)
  else return all.getD (.sequence [])

/-- Parses some tokens, with the warnings reported on the way. -/
def parseTokens (ix : Index) (tokens : List Token) : Expr × List Warning :=
  let (e, p) := (parseAll ix).run (ofTokens tokens)
  (e, p.warnings)

end MathMarkup.Parser
