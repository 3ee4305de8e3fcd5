import MathMarkup.Json.Basic
import MathMarkup.Options.Style

/-!
# Reading options

Configurations are JSON objects with a field for each option. An absent field, and a null in place
of an option, leave the option alone. A number format is read as a whole: its absent fields take
the default values, whatever the current format is, and null is no value for them. Fields without
a meaning are ignored; a value of the wrong sort or an unknown spelling makes the whole
configuration unreadable.
-/

namespace MathMarkup

namespace Json

/-- A string. -/
def asString? : Json → Option String
  | .str s => some s
  | _ => none

/-- A truth value. -/
def asBool? : Json → Option Bool
  | .bool b => some b
  | _ => none

/-- A natural number. -/
def asNat? : Json → Option Nat
  | .int (.ofNat n) => some n
  | _ => none

/-- A style by its spelling, bare or as the only field of an object without a value. -/
def asStyle? {α : Type} [Spelled α] : Json → Option α
  | .str s => Spelled.ofSpelling? s
  | .obj [(s, .null)] => Spelled.ofSpelling? s
  | _ => none

/-- A field that may be absent or null: `some none` if it is, and none if its value is
unreadable. -/
def optionalField? {α : Type} (read : Json → Option α) (key : String) (v : Json) :
    Option (Option α) :=
  match v.field? key with
  | none | some .null => some none
  | some w => (read w).map some

/-- A field with a default for its absence. -/
def fieldWithDefault? {α : Type} (read : Json → Option α) (default : α) (key : String)
    (v : Json) : Option α :=
  match v.field? key with
  | none => some default
  | some w => read w

end Json

/-- A number format from its fields. -/
def NumberFormat.ofFields? (v : Json) : Option NumberFormat := do
  let d : NumberFormat := {}
  return {
    decimalMarker := ← v.fieldWithDefault? Json.asString? d.decimalMarker "decimalMarker"
    groupSeparator := ← v.fieldWithDefault? Json.asString? d.groupSeparator "groupSeparator"
    digitGroup := ← v.fieldWithDefault? Json.asNat? d.digitGroup "digitGroup"
    exponentStyle := ← v.fieldWithDefault? Json.asStyle? d.exponentStyle "exponentStyle"
    repeatingDecimal := ← v.fieldWithDefault? Json.asStyle? d.repeatingDecimal "repeatingDecimal"
    notANumber := ← v.fieldWithDefault? Json.asString? d.notANumber "notANumber"
    positiveInfinity := ← v.fieldWithDefault? Json.asString? d.positiveInfinity "positiveInfinity"
    negativeInfinity := ←
      v.fieldWithDefault? Json.asString? d.negativeInfinity "negativeInfinity" }

/-- The fields of a number format in the order of its array form. -/
def NumberFormat.fieldOrder : List String :=
  ["decimalMarker", "groupSeparator", "digitGroup", "exponentStyle", "repeatingDecimal",
    "notANumber", "positiveInfinity", "negativeInfinity"]

/-- A number format, as an object or as an array of its first fields in order. -/
def NumberFormat.ofJson? : Json → Option NumberFormat
  | .obj fields => ofFields? (.obj fields)
  | .arr items =>
    if items.length ≤ fieldOrder.length then ofFields? (Json.object (fieldOrder.zip items))
    else none
  | _ => none

/-- The options that a configuration gives. -/
def PartialOptions.ofJson? : Json → Option PartialOptions
  | .obj fields => do
    let v := Json.obj fields
    return {
      invisibleMultiply := ← v.optionalField? Json.asString? "invisibleMultiply"
      invisiblePlus := ← v.optionalField? Json.asString? "invisiblePlus"
      multiply := ← v.optionalField? Json.asString? "multiply"
      missingSymbol := ← v.optionalField? Json.asString? "missingSymbol"
      preserveLatex := ← v.optionalField? Json.asBool? "preserveLatex"
      number := ← v.optionalField? NumberFormat.ofJson? "number"
      applyFunctionStyle := ← v.optionalField? Json.asStyle? "applyFunctionStyle"
      groupStyle := ← v.optionalField? Json.asStyle? "groupStyle"
      rootStyle := ← v.optionalField? Json.asStyle? "rootStyle"
      fractionStyle := ← v.optionalField? Json.asStyle? "fractionStyle"
      logicStyle := ← v.optionalField? Json.asStyle? "logicStyle"
      powerStyle := ← v.optionalField? Json.asStyle? "powerStyle"
      numericSetStyle := ← v.optionalField? Json.asStyle? "numericSetStyle" }
  | _ => none

/-- All items of an array. -/
def Json.asList? {α : Type} (read : Json → Option α) : Json → Option (List α)
  | .arr items => items.mapM read
  | _ => none

/-- The values of all fields of an object. -/
def Json.asFields? {α : Type} (read : Json → Option α) : Json → Option (List (String × α))
  | .obj fields => fields.mapM fun f => (read f.2).map (f.1, ·)
  | _ => none

/-- A style rule with at least one level. -/
def StyleRule.ofJson? {α : Type} [Spelled α] (v : Json) : Option (StyleRule α) := do
  let levels ← v.field? "levels"
  let levels ← levels.asList? Json.asStyle?
  let heads ← v.optionalField? (Json.asFields? Json.asStyle?) "heads"
  if levels.isEmpty then none else some { levels, heads := heads.getD [] }

/-- The style rules that a configuration gives. -/
def StyleRules.ofJson? : Json → Option StyleRules
  | .obj fields => do
    let v := Json.obj fields
    return {
      applyFunctionStyle := ← v.optionalField? StyleRule.ofJson? "applyFunctionStyle"
      groupStyle := ← v.optionalField? StyleRule.ofJson? "groupStyle"
      rootStyle := ← v.optionalField? StyleRule.ofJson? "rootStyle"
      fractionStyle := ← v.optionalField? StyleRule.ofJson? "fractionStyle"
      logicStyle := ← v.optionalField? StyleRule.ofJson? "logicStyle"
      powerStyle := ← v.optionalField? StyleRule.ofJson? "powerStyle"
      numericSetStyle := ← v.optionalField? StyleRule.ofJson? "numericSetStyle" }
  | _ => none

end MathMarkup
