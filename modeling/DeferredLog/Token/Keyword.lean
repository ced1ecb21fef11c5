/-!
# Keywords

The words with a meaning of their own, and the sets of them that decide how the text around them is
read. All of these are names too: a keyword behind a dot is an ordinary name.
-/

namespace DeferredLog

/-- The words that never name a binding. -/
def reservedWords : List String := [
  "await", "break", "case", "catch", "class", "const", "continue", "debugger", "default",
  "delete", "do", "else", "enum", "export", "extends", "false", "finally", "for", "function",
  "if", "import", "in", "instanceof", "new", "null", "return", "super", "switch", "this",
  "throw", "true", "try", "typeof", "var", "void", "while", "with", "yield"]

/-- Whether a word never names a binding. -/
def isReserved (word : String) : Bool :=
  reservedWords.contains word

/-- The keywords behind which an expression starts, and so a slash a regular expression. -/
def expressionKeywords : List String := [
  "return", "typeof", "instanceof", "in", "of", "new", "delete", "void", "throw", "case", "do",
  "else", "yield", "await"]

/-- The keywords whose head in parentheses is followed by a statement. -/
def conditionKeywords : List String := ["if", "while", "for", "with"]

/-- The operators among the names: an expression does not end behind one of them. -/
def operatorWords : List String := [
  "typeof", "instanceof", "in", "new", "delete", "void", "await", "yield"]

example : isReserved "function" ∧ ¬ isReserved "logger" ∧ ¬ isReserved "let" := by decide +kernel

end DeferredLog
