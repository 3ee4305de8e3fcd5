import MathMarkup.Lexicon.Kind

/-!
# Warnings

A warning says that a configuration is at fault, or that an expression could only be rendered as
best we can. It never changes what is computed. Faults of the markup itself are no warnings: they
are error nodes in the expression.
-/

namespace MathMarkup

/-- A problem that does not prevent a result. -/
inductive Warning where
  /-- An operator entry without a precedence. -/
  | missingPrecedence (kind : Kind) (entry : String)
  /-- An entry that nothing can trigger. -/
  | missingTrigger (kind : Kind) (entry : String)
  /-- A matchfix entry without a close trigger. -/
  | missingCloseTrigger (entry : String)
  /-- An alias that names no entry. -/
  | unknownAlias (trigger name : String)
  /-- An operator applied to the wrong number of operands. -/
  | operandCount (head : String) (expected actual : Nat)
  /-- A template that lacks a placeholder. -/
  | expectedArgument (option value : String)
  /-- Something without a rendering. -/
  | unserializable (what : String)
  deriving DecidableEq, Repr

namespace Warning

/-- What a warning says. -/
def message : Warning → String
  | .missingPrecedence kind entry => kind.label ++ " entry `" ++ entry ++ "` has no precedence"
  | .missingTrigger kind entry => kind.label ++ " entry `" ++ entry ++ "` has no trigger"
  | .missingCloseTrigger entry => "matchfix entry `" ++ entry ++ "` has no close trigger"
  | .unknownAlias trigger name =>
    "`" ++ trigger ++ "` parses as `" ++ name ++ "` which is not defined"
  | .operandCount head expected actual =>
    "`" ++ head ++ "` expects " ++ toString expected ++ " operand(s) but has " ++ toString actual
  | .expectedArgument option value =>
    "option `" ++ option ++ "` must contain `#1` and `#2`, got `" ++ value ++ "`"
  | .unserializable what => "cannot serialize " ++ what

/-- The name of a warning's sort. -/
def label : Warning → String
  | .missingPrecedence .. => "MissingPrecedence"
  | .missingTrigger .. => "MissingTrigger"
  | .missingCloseTrigger .. => "MissingCloseTrigger"
  | .unknownAlias .. => "UnknownAlias"
  | .operandCount .. => "OperandCount"
  | .expectedArgument .. => "ExpectedArgument"
  | .unserializable .. => "Unserializable"

end Warning
end MathMarkup
