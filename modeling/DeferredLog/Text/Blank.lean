import DeferredLog.Text.Ranges

/-!
# White space and line breaks

The characters with the Unicode property `White_Space`, and the four of them that end a line of a
program. `isBlank_of_isLineBreak`: a line break is white space.
-/

namespace DeferredLog.Text

/-- The scalar values with the property `White_Space`. -/
def blankRanges : Ranges := [
  (0x9, 0xD), (0x20, 0x20), (0x85, 0x85), (0xA0, 0xA0), (0x1680, 0x1680), (0x2000, 0x200A),
  (0x2028, 0x2029), (0x202F, 0x202F), (0x205F, 0x205F), (0x3000, 0x3000)]

/-- Whether a character is white space. -/
def isBlank (c : Char) : Bool :=
  blankRanges.has c

/-- Whether a character ends a line: line feed, carriage return, line or paragraph separator. -/
def isLineBreak (c : Char) : Bool :=
  c = '\n' || c = '\r' || c = '\u2028' || c = '\u2029'

theorem isBlank_of_isLineBreak {c : Char} (h : isLineBreak c = true) : isBlank c = true := by
  simp only [isLineBreak, Bool.or_eq_true, decide_eq_true_eq] at h
  rcases h with ((rfl | rfl) | rfl) | rfl <;> decide +kernel

example : isBlank ' ' ∧ isBlank '\t' ∧ isBlank '\u0085' ∧ isBlank '\u3000' := by decide +kernel

example : ¬ isBlank '\u200b' ∧ ¬ isBlank '\ufeff' ∧ ¬ isBlank 'a' := by decide +kernel

end DeferredLog.Text
