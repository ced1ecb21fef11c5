/-!
# Delimiters

The four pairs of delimiters that nest in a program. A template literal with substitutions is
delimited by its first and its last piece.
-/

namespace DeferredLog

/-- A pair of delimiters. -/
inductive Delimiter where
  | paren
  | bracket
  | brace
  | template
  deriving DecidableEq, Repr

/-- How a pair of delimiters is written in a message. -/
def Delimiter.text : Delimiter → String
  | .paren => "()"
  | .bracket => "[]"
  | .brace => "\x7b\x7d"
  | .template => "``"

end DeferredLog
