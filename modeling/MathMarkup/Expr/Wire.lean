import MathMarkup.Decimal.Shortest
import MathMarkup.Expr
import MathMarkup.Json.Writer

/-!
# Expressions on the wire

`Expr.toJson` writes an expression as JSON and `Expr.ofJson` reads it back. An atom is a bare
value: a symbol is a string, a string literal a string in single quotes, and a number is a JSON
number where that keeps its text. An application is an array that starts with its head. Whatever
has no bare form is an object: a table, a number whose text a JSON number would change, and
everything with an annotation.

Reading is more liberal than writing: every expression but an application without operands has an
object form with or without an annotation, and an array whose first item is no symbol is an
application of `Apply` to all of its items.
-/

namespace MathMarkup

/-- Why a JSON value is no expression. -/
inductive WireError where
  /-- A value that never stands for an expression. -/
  | unexpected (what : String)
  | emptyFunction
  | emptySymbol
  /-- A field of an object form that holds the wrong kind of value. -/
  | invalidField (name : String)
  /-- An object without any of the fields that say what it is. -/
  | unknownObject
  deriving DecidableEq, Repr

/-- What is said about a value that is no expression. -/
def WireError.message : WireError → String
  | .unexpected what => "unexpected " ++ what ++ " in expression"
  | .emptyFunction => "function expression is an empty array"
  | .emptySymbol => "symbol name is empty"
  | .invalidField name => "field `" ++ name ++ "` has the wrong type"
  | .unknownObject => "object has none of `num`, `str`, `sym`, `fn` or `dict`"

namespace Expr

/-- The text between single quotes at both ends of a string of two or more characters. -/
def unquote? (s : String) : Option String :=
  match s.toList with
  | '\'' :: rest =>
    if rest.getLast? == some '\'' then some (String.ofList rest.dropLast) else none
  | _ => none

/-- A string literal on the wire. -/
def quote (value : String) : String :=
  "'" ++ value ++ "'"

/-- The integer that a text is the plain decimal form of. -/
def canonicalInt? (text : String) : Option Int :=
  let (negative, ds) := match text.toList with
    | '-' :: ds => (true, ds)
    | ds => (false, ds)
  if ds.isEmpty || !ds.all Char.isDigit then none
  else
    let n := digitsValue ds
    let i : Int := if negative then -(n : Int) else n
    if toString i == text then some i else none

/-- The double nearest to a text of digits with at most one point and a minus sign at most. -/
def plainDouble? (text : String) : Option Binary64 :=
  let (negative, cs) := match text.toList with
    | '-' :: cs => (true, cs)
    | cs => (false, cs)
  let whole := cs.takeWhile Char.isDigit
  let pointed := cs.dropWhile Char.isDigit
  let fraction := pointed.drop 1
  if (whole.isEmpty && fraction.isEmpty) || !fraction.all Char.isDigit ||
      !(pointed.isEmpty || pointed.head? == some '.') then none
  else Binary64.ofDecimal? negative (digitsValue (whole ++ fraction)) (-(fraction.length : Int))

/-- The JSON form of a number: an integer or a double if that prints as the very same text, else
the text itself. -/
def numberToJson (text : String) : Json :=
  let asText := Json.object [("num", .str text)]
  match canonicalInt? text with
  | some n => if Json.fitsSigned n then .int n else asDouble asText
  | none => asDouble asText
where
  /-- The double that prints as the text, or else what is given. -/
  asDouble (otherwise : Json) : Json :=
    match plainDouble? text with
    | some x => if Layout.plain.write x == text then .real x else otherwise
    | none => otherwise

mutual
/-- The JSON form of an expression. -/
def toJson : Expr → Json
  | .number text => numberToJson text
  | .string value => .str (quote value)
  | .symbol name => .str name
  | .apply head operands => .arr (.str head :: toJsonAll operands)
  | .table entries => Json.object [("dict", Json.object (toJsonEntries entries))]
  | .annotated markup e => annotatedToJson markup e
/-- The JSON form of an expression under an annotation. Of nested annotations the outermost
counts. -/
def annotatedToJson (markup : String) : Expr → Json
  | .number text => Json.object [("num", .str text), ("latex", .str markup)]
  | .string value => Json.object [("str", .str value), ("latex", .str markup)]
  | .symbol name => Json.object [("sym", .str name), ("latex", .str markup)]
  | .apply head operands =>
    Json.object [("fn", .arr (.str head :: toJsonAll operands)), ("latex", .str markup)]
  | .table entries =>
    Json.object [("dict", Json.object (toJsonEntries entries)), ("latex", .str markup)]
  | .annotated _ e => annotatedToJson markup e
/-- The JSON forms of some expressions. -/
def toJsonAll : List Expr → List Json
  | [] => []
  | e :: es => toJson e :: toJsonAll es
/-- The JSON forms of some entries. -/
def toJsonEntries : List (String × Expr) → List (String × Json)
  | [] => []
  | (k, e) :: es => (k, toJson e) :: toJsonEntries es
end

/-- The text of a JSON number. -/
def numberText? : Json → Option String
  | .int n => some (toString n)
  | .real x => some (Layout.wire.write x)
  | _ => none

/-- The expression that a bare string stands for. -/
def ofBareString (s : String) : Except WireError Expr :=
  match unquote? s with
  | some value => .ok (.string value)
  | none => if s.isEmpty then .error .emptySymbol else .ok (.symbol s)

/-- The application that an array stands for, given its first item, what that stands for, and the
operands after it. Only a bare symbol is a head. -/
def ofItems (first : Json) (head : Expr) (operands : List Expr) : Expr :=
  match first, head with
  | .str _, .symbol name => .apply name operands
  | _, _ => .apply "Apply" (head :: operands)

/-- Puts the annotation of an object form around its expression. -/
def withAnnotation (latex : Option Json) (e : Expr) : Except WireError Expr :=
  match latex with
  | none => .ok e
  | some (.str markup) => .ok (e.annotate markup)
  | some _ => .error (.invalidField "latex")

/-- The expression of a `num` field. -/
def ofNumField : Json → Except WireError Expr
  | .str text => .ok (.number text)
  | v =>
    match numberText? v with
    | some text => .ok (.number text)
    | none => .error (.invalidField "num")

/-- The expression of a `str` field. -/
def ofStrField : Json → Except WireError Expr
  | .str value => .ok (.string value)
  | _ => .error (.invalidField "str")

/-- The expression of a `sym` field. -/
def ofSymField : Json → Except WireError Expr
  | .str name => if name.isEmpty then .error .emptySymbol else .ok (.symbol name)
  | _ => .error (.invalidField "sym")

/-- The fields of an object form that hold further expressions, already read, beside the raw
fields. -/
structure ObjectForm where
  fields : List (String × Json)
  /-- The reading of the `fn` field. -/
  fn : Option (Except WireError Expr)
  /-- The reading of the `dict` field. -/
  dict : Option (Except WireError Expr)

/-- The expression of an object form. The first field present of `num`, `str`, `sym`, `fn` and
`dict` says what it is. -/
def ofObjectForm (form : ObjectForm) : Except WireError Expr := do
  let e ←
    match form.fields.lookup "num", form.fields.lookup "str", form.fields.lookup "sym" with
    | some v, _, _ => ofNumField v
    | none, some v, _ => ofStrField v
    | none, none, some v => ofSymField v
    | none, none, none =>
      match form.fn, form.dict with
      | some e, _ => e
      | none, some e => e
      | none, none => .error .unknownObject
  withAnnotation (form.fields.lookup "latex") e

mutual
/-- The expression that a JSON value stands for. -/
def ofJson : Json → Except WireError Expr
  | .null => .error (.unexpected "null")
  | .bool _ => .error (.unexpected "a boolean")
  | .int n => .ok (.number (toString n))
  | .real x => .ok (.number (Layout.wire.write x))
  | .str s => ofBareString s
  | .arr items => ofArray items
  | .obj fields => ofObjectForm ⟨fields, fnField? fields, dictField? fields⟩
/-- The application that an array stands for. -/
def ofArray : List Json → Except WireError Expr
  | [] => .error .emptyFunction
  | first :: rest => do
    let head ← ofJson first
    return ofItems first head (← ofJsonAll rest)
/-- The expressions that some values stand for. -/
def ofJsonAll : List Json → Except WireError (List Expr)
  | [] => .ok []
  | v :: vs => do
    let e ← ofJson v
    return e :: (← ofJsonAll vs)
/-- The entries that some fields stand for. -/
def ofJsonFields : List (String × Json) → Except WireError (List (String × Expr))
  | [] => .ok []
  | (k, v) :: rest => do
    let e ← ofJson v
    return (k, e) :: (← ofJsonFields rest)
/-- The reading of the `fn` field among some fields. -/
def fnField? : List (String × Json) → Option (Except WireError Expr)
  | [] => none
  | (k, v) :: rest =>
    if k == "fn" then
      match v with
      | .arr items => some (ofArray items)
      | _ => some (.error (.invalidField "fn"))
    else fnField? rest
/-- The reading of the `dict` field among some fields. -/
def dictField? : List (String × Json) → Option (Except WireError Expr)
  | [] => none
  | (k, v) :: rest =>
    if k == "dict" then
      match v with
      | .obj fields => some ((ofJsonFields fields).map .table)
      | _ => some (.error (.invalidField "dict"))
    else dictField? rest
end

/-- The compact JSON text of an expression. -/
def toWire (e : Expr) : String :=
  e.toJson.write

end Expr
end MathMarkup
