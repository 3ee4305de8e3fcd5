import MathMarkup.Lexicon.Standard
import MathMarkup.Parser.Recovery
import MathMarkup.Renderer

/-!
# Transcoders

A transcoder is a lexicon with its index and rendering options: what it takes to go from markup to
expressions and back. It starts out with the standard lexicon and the default options. Both can be
replaced; each operation gives its warnings beside its result.
-/

namespace MathMarkup

/-- A configured parser and renderer. -/
structure Transcoder where
  /-- The lexicon, unless it is the standard one. -/
  lexicon : Option (List Entry) := none
  index : Index := Index.standard
  options : Options := {}

namespace Transcoder

/-- Replaces the lexicon. -/
def setLexicon (t : Transcoder) (entries : List Entry) : Transcoder × List Warning :=
  let (index, warnings) := Index.ofEntries entries
  ({ t with lexicon := some entries, index }, warnings)

/-- Changes some options. -/
def updateOptions (t : Transcoder) (p : PartialOptions) : Transcoder × List Warning :=
  let (options, warnings) := t.options.merge p
  ({ t with options }, warnings)

/-- The entries of a category of the standard lexicon, or the whole current lexicon. -/
def entries (t : Transcoder) (category : Option Category) : List Entry :=
  match category with
  | some c => c.entries
  | none => t.lexicon.getD Lexicon.standard

/-- Parses markup. The expression is annotated with the markup if the options say so. -/
def parse (t : Transcoder) (markup : String) : Expr × List Warning :=
  let (e, warnings) := Parser.parseTokens t.index (Token.scan markup)
  (if t.options.preserveLatex then e.annotate markup else e, warnings)

/-- The renderer of a transcoder. -/
def renderer (t : Transcoder) (canonical : Bool) : Renderer :=
  { options := t.options, index := t.index, canonical }

/-- Renders an expression, by its structure alone if it is to be canonical. -/
def render (t : Transcoder) (e : Expr) (canonical : Bool) : String × List Warning :=
  ((t.renderer canonical).render e 0).run []

end Transcoder
end MathMarkup
