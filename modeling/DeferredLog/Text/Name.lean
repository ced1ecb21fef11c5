import DeferredLog.Text.Alphabetic
import DeferredLog.Text.Number

/-!
# Characters of names

Which characters start a name and which continue it. `isNamePart_of_isNameStart`: a character that
starts a name also continues one.
-/

namespace DeferredLog.Text

/-- Whether a character can start a name: a dollar sign, a low line or a letter. -/
def isNameStart (c : Char) : Bool :=
  c = '$' || c = '_' || isAlphabetic c

/-- Whether a character can continue a name: one that starts a name, a number, or a joiner. -/
def isNamePart (c : Char) : Bool :=
  isNameStart c || isNumber c || c = '\u200c' || c = '\u200d'

theorem isNamePart_of_isNameStart {c : Char} (h : isNameStart c = true) : isNamePart c = true := by
  simp [isNamePart, h]

example : isNameStart '$' ∧ isNameStart 'é' ∧ ¬ isNameStart '1' := by decide +kernel

example : isNamePart '1' ∧ isNamePart '²' ∧ ¬ isNamePart '-' ∧ ¬ isNamePart '\u0301' := by
  decide +kernel

end DeferredLog.Text
