import MathMarkup.Expr.Wire
import MathMarkup.Json.Reader
import MathMarkup.Lexicon.Recipe
import MathMarkup.Options.Reader
import MathMarkup.Transcoder
import MathMarkup.TriggerMap.Bucket
import MathMarkup.TriggerMap.Linear
import MathMarkup.TriggerMap.Trie
import MathMarkup.Proofs.Conservation
import MathMarkup.Proofs.Lookup
import MathMarkup.Proofs.Progress
import MathMarkup.Proofs.Completion
import MathMarkup.Proofs.Recoveries
import MathMarkup.Proofs.Bare
import MathMarkup.Proofs.Endings
import MathMarkup.Proofs.Rewinding
import MathMarkup.Proofs.Overriding
import MathMarkup.Proofs.Aliases
import MathMarkup.Proofs.Reads
import MathMarkup.Proofs.Grammar
import MathMarkup.Proofs.Scan
import MathMarkup.Proofs.Names
import MathMarkup.Proofs.Rendering
import MathMarkup.Proofs.Annotations
import MathMarkup.Proofs.Legible
import MathMarkup.Proofs.OperatorTable
import MathMarkup.Proofs.Numerals
import MathMarkup.Proofs.StandardForms
import MathMarkup.Proofs.Answers
import MathMarkup.Proofs.NameRoundTrip
import MathMarkup.Proofs.StandardAtoms
import MathMarkup.Proofs.StandardRoundTrip
import MathMarkup.Proofs.Fractions
import MathMarkup.Proofs.StringLiterals
import MathMarkup.Proofs.TriggerMaps
import MathMarkup.Proofs.Chains
import MathMarkup.Proofs.LeftChains
import MathMarkup.Proofs.WireRoundTrip
import MathMarkup.Proofs.Decimals
import MathMarkup.Proofs.WireSafety
import MathMarkup.Proofs.NameTokens
import MathMarkup.Proofs.Passage
import MathMarkup.Proofs.Tracking
import MathMarkup.Proofs.Environments
import MathMarkup.Proofs.Braces
import MathMarkup.Proofs.NeutralMarkup
import MathMarkup.Proofs.BalancedRendering
import MathMarkup.Proofs.StandardBraces
import MathMarkup.Proofs.PlainNames
import MathMarkup.Proofs.BalancedParses
import MathMarkup.Proofs.Layout
import MathMarkup.Proofs.Respelling
import MathMarkup.Proofs.DigitGroups
import MathMarkup.Proofs.Compaction
import MathMarkup.Proofs.UnitGrammar
import MathMarkup.Proofs.Cursor
import MathMarkup.Proofs.NameExtent
import MathMarkup.Proofs.Containment
import MathMarkup.Proofs.GroupEnds
import MathMarkup.Proofs.OperatorChoice
import MathMarkup.Proofs.Juxtaposition
import MathMarkup.Proofs.Matrices
import MathMarkup.Proofs.EscapedNames
import MathMarkup.Proofs.Templates
import MathMarkup.Proofs.KeptOperands
import MathMarkup.Proofs.Connectives
import MathMarkup.Proofs.NumberTexts
import MathMarkup.Proofs.Reports
