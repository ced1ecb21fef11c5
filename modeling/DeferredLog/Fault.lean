import DeferredLog.Text.Quoted
import DeferredLog.Token.Delimiter

/-!
# Faults of a program text

What can be wrong with the text of a program, where it is, and the words for it. A fault has one
cause and the byte offset at which it was found.
-/

namespace DeferredLog

/-- A part that a statement requires and does not have. -/
inductive Missing where
  | statement
  | ifHead
  | whileHead
  | forHead
  | switchHead
  | doWhile
  | tryBlock
  | catchBlock
  | finallyBlock
  | switchBlock
  | caseColon
  | functionParameters
  | functionBody
  | classBody
  | moduleSpecifier
  | arrowParameters
  | arrowBody
  deriving DecidableEq, Repr

/-- The words for a missing part. -/
def Missing.text : Missing → String
  | .statement => "statement"
  | .ifHead => "`(` after `if`"
  | .whileHead => "`(` after `while`"
  | .forHead => "`(` after `for`"
  | .switchHead => "`(` after `switch`"
  | .doWhile => "`while` after `do` body"
  | .tryBlock => "block after `try`"
  | .catchBlock => "block after `catch`"
  | .finallyBlock => "block after `finally`"
  | .switchBlock => "block after `switch`"
  | .caseColon => "`:` after `case`"
  | .functionParameters => "function parameters"
  | .functionBody => "function body"
  | .classBody => "class body"
  | .moduleSpecifier => "module specifier"
  | .arrowParameters => "arrow parameters"
  | .arrowBody => "arrow body"

/-- Why a text is no program. -/
inductive Cause where
  | unterminatedString
  | unterminatedTemplate
  | unterminatedComment
  | unterminatedRegex
  /-- A character that starts no token. -/
  | unexpectedChar (c : Char)
  /-- A closing delimiter with nothing open. -/
  | unexpectedClose (delimiter : Delimiter)
  /-- A closing delimiter of another kind than the innermost open one. -/
  | mismatchedClose (opening closing : Delimiter)
  /-- A delimiter that is never closed. -/
  | unclosed (delimiter : Delimiter)
  /-- A statement without a part that it requires. -/
  | expected (part : Missing)
  deriving DecidableEq, Repr

/-- The words for a cause. -/
def Cause.text : Cause → String
  | .unterminatedString => "unterminated string literal"
  | .unterminatedTemplate => "unterminated template literal"
  | .unterminatedComment => "unterminated comment"
  | .unterminatedRegex => "unterminated regular expression"
  | .unexpectedChar c => "unexpected character " ++ Text.quoteChar c
  | .unexpectedClose d => "unexpected closing " ++ d.text
  | .mismatchedClose opening closing =>
    "expected closing " ++ opening.text ++ ", found closing " ++ closing.text
  | .unclosed d => "unclosed " ++ d.text
  | .expected part => "expected " ++ part.text

/-- A fault: its cause, and the byte offset at which it was found. -/
structure Fault where
  /-- Why the text is no program. -/
  cause : Cause
  /-- Where that was found. -/
  offset : Nat
  deriving DecidableEq, Repr

/-- The message of a fault. -/
def Fault.message (fault : Fault) : String :=
  fault.cause.text ++ " at offset " ++ toString fault.offset

/-- An outcome that passes a test is a result. -/
theorem exists_of_any_toOption {ε α : Type} {p : α → Bool} {outcome : Except ε α}
    (h : outcome.toOption.any p = true) : ∃ a, outcome = .ok a ∧ p a = true := by
  cases outcome with
  | error => cases h
  | ok a => exact ⟨a, rfl, h⟩

end DeferredLog
