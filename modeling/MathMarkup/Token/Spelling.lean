import MathMarkup.Token

/-!
# Spelling markup

Markup is put together from fragments with one rule: where a control word such as `\alpha` would
swallow the first letter of what follows, a space keeps the two apart. `append` applies the rule
once, `join` folds it over a list, and `Token.spell` turns tokens back into markup.
-/

namespace MathMarkup

/-- Whether some reversed markup ends in a backslash, ASCII letters and at most one star, so that
a letter written after it would be read as part of the command. -/
def revEndsWithControlWord (revChars : List Char) : Bool :=
  let rest := match revChars with
    | '*' :: cs => cs
    | cs => cs
  match rest.takeWhile Char.isAlpha, rest.dropWhile Char.isAlpha with
  | _ :: _, '\\' :: _ => true
  | _, _ => false

/-- Whether markup ends in a control word, possibly a starred one. -/
def endsWithControlWord (markup : String) : Bool :=
  revEndsWithControlWord markup.toList.reverse

/-- Whether markup starts with a character that would extend a control word before it. -/
def extendsControlWord (markup : String) : Bool :=
  match markup.toList with
  | [] => false
  | c :: _ => c.isAlpha || c == '*'

/-- Writes a fragment after some markup, with a space where a control word would swallow it. -/
def append (markup fragment : String) : String :=
  if extendsControlWord fragment && endsWithControlWord markup then markup ++ " " ++ fragment
  else markup ++ fragment

/-- Writes fragments one after the other. -/
def join (fragments : List String) : String :=
  fragments.foldl append ""

/-- The markup of some tokens. -/
def Token.spell (tokens : List Token) : String :=
  join (Token.raws tokens)

theorem append_empty (markup : String) : append markup "" = markup := by
  have : extendsControlWord "" = false := rfl
  simp [append, this]

theorem empty_append (fragment : String) : append "" fragment = fragment := by
  have : endsWithControlWord "" = false := rfl
  simp [append, this]

end MathMarkup
