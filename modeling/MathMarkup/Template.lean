import MathMarkup.Token.Spelling

/-!
# Templates

A template is markup with placeholders `#1` to `#9`. Filling one goes from left to right in a
single pass: markup in an argument is never read as a placeholder. A hash is literal after a
backslash, and the backslash that counts is the last character written so far, wherever it came
from. A placeholder without an argument stands for nothing.
-/

namespace MathMarkup.Template

/-- The placeholder number that a character after a hash stands for. -/
def placeholder? (c : Char) : Option Nat :=
  if '1' ≤ c ∧ c ≤ '9' then some (c.toNat - '0'.toNat) else none

/-- Whether the markup written so far makes a hash that follows literal. -/
def escapesHash (written : String) : Bool :=
  written.toList.getLast? == some '\\'

/-- The argument with a number from 1, or nothing. -/
def argument (args : List String) (n : Nat) : String :=
  (args[n - 1]?).getD ""

/-- Writes the rest of a template after the markup written so far. -/
def fillFrom (args : List String) (written : String) (template : List Char) : String :=
  let written := append written (String.ofList (template.takeWhile (· != '#')))
  match _h : template.dropWhile (· != '#') with
  | [] => written
  | [hash] => written.push hash
  | hash :: c :: rest =>
    match placeholder? c with
    | some n =>
      if escapesHash written then fillFrom args (written.push hash) (c :: rest)
      else fillFrom args (append written (argument args n)) rest
    | none => fillFrom args (written.push hash) (c :: rest)
termination_by template.length
decreasing_by
  all_goals
    have := congrArg List.length _h
    have := (List.dropWhile_sublist (p := (· != '#')) (l := template)).length_le
    simp only [List.length_cons] at *
    omega

/-- Fills the placeholders of a template. -/
def fill (template : String) (args : List String) : String :=
  fillFrom args "" template.toList

end MathMarkup.Template
