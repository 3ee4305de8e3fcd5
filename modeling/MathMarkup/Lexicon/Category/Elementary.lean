import MathMarkup.Lexicon.Entry

/-!
# Elementary functions and constants
-/

namespace MathMarkup.Lexicon.Elementary

/-- The elementary functions with their commands. -/
def functions : List (String × String) := [
  ("\\sin", "Sin"), ("\\cos", "Cos"), ("\\tan", "Tan"), ("\\cot", "Cot"), ("\\sec", "Sec"),
  ("\\csc", "Csc"), ("\\arcsin", "Arcsin"), ("\\arccos", "Arccos"), ("\\arctan", "Arctan"),
  ("\\sinh", "Sinh"), ("\\cosh", "Cosh"), ("\\tanh", "Tanh"), ("\\ln", "Ln"), ("\\log", "Log"),
  ("\\lg", "Lg"), ("\\exp", "Exp"), ("\\max", "Max"), ("\\min", "Min"), ("\\gcd", "Gcd"),
  ("\\det", "Det")]

/-- The entries. -/
def entries : List Entry :=
  functions.map (fun f => (Entry.function f.1).named f.2) ++ [
    (Entry.identifier "\\pi").named "Pi",
    (Entry.identifier "\\infty").named "PositiveInfinity",
    (Entry.identifier "\\exponentialE").parseAs "ExponentialE",
    (Entry.identifier "\\mathrm\x7be\x7d").named "ExponentialE",
    (Entry.identifier "\\imaginaryI").parseAs "ImaginaryUnit",
    (Entry.identifier "\\mathrm\x7bi\x7d").named "ImaginaryUnit"]

end MathMarkup.Lexicon.Elementary
