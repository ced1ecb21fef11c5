import DeferredLog.Text.Hex
import DeferredLog.Text.Hidden

/-!
# Quoted text

Messages show a character or a text between quotes so that every character of it can be told.
A backslash, the quote itself and the common controls are escaped by a letter, a hidden character
is spelled by its code, and all else stands for itself. `escape_of_visible` says the last part.
-/

namespace DeferredLog.Text

/-- How a character is written between two of the given quotes. -/
def escape (quote c : Char) : String :=
  if c = '\x00' then "\\0"
  else if c = '\t' then "\\t"
  else if c = '\n' then "\\n"
  else if c = '\r' then "\\r"
  else if c = '\\' || c = quote then String.ofList ['\\', c]
  else if isHidden c then "\\u\x7b" ++ hex c.toNat ++ "\x7d"
  else c.toString

theorem escape_of_visible {quote c : Char} (hidden : isHidden c = false) (slash : c ≠ '\\')
    (other : c ≠ quote) : escape quote c = c.toString := by
  have h₀ : c ≠ '\x00' := by rintro rfl; revert hidden; decide +kernel
  have h₁ : c ≠ '\t' := by rintro rfl; revert hidden; decide +kernel
  have h₂ : c ≠ '\n' := by rintro rfl; revert hidden; decide +kernel
  have h₃ : c ≠ '\r' := by rintro rfl; revert hidden; decide +kernel
  simp [escape, h₀, h₁, h₂, h₃, slash, other, hidden]

/-- A character between single quotes. -/
def quoteChar (c : Char) : String :=
  "'" ++ escape '\'' c ++ "'"

/-- A text between double quotes. -/
def quote (s : String) : String :=
  "\"" ++ String.join (s.toList.map (escape '"')) ++ "\""

example : quoteChar '"' = "'\"'" ∧ quoteChar '\'' = "'\\''" := by decide +kernel

example : quoteChar '\u0301' = "'\\u\x7b301\x7d'" := by decide +kernel

end DeferredLog.Text
