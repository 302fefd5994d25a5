import RepairCorpus.Json.Value
import RepairCorpus.Text.Blank

/-!
# Literals

A literal node carries three things: its value, its source text, and, for a regular expression,
the pattern and flags.  Tokens and words are made from the source text; the value only decides
which placeholder hides the literal.
-/

namespace RepairCorpus

/-- The parts of a regular expression; a producer may leave out either. -/
structure Regex where
  pattern : Option String
  flags : Option String
  deriving DecidableEq, Inhabited

/-- The value of a literal. -/
inductive LiteralValue where
  | bool (value : Bool)
  | number (value : Binary64)
  | text (value : String)
  | regex (value : Regex)
  | null
  deriving DecidableEq, Inhabited

/-- The token of a literal: its source text with each run of blanks made an underscore, so that
it stays one word on a line of tokens. -/
def literalToken (raw : String) : String := Text.squeeze raw

end RepairCorpus
