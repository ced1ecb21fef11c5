import DeferredLog.Text.Alphabetic
import DeferredLog.Text.Mark
import DeferredLog.Text.Number
import DeferredLog.Text.Recent

/-!
# Words

A word character is a letter, a mark, a decimal digit, a connector or a joiner. A word boundary lies
between a word character and another character or an end of the text. Characters younger than
edition 16.0 of the character data are not part of words, although they may be part of names.
-/

namespace DeferredLog.Text

/-- Whether a character is part of a word. -/
def isWord (c : Char) : Bool :=
  !isRecent c &&
    (isAlphabetic c || isMark c || isDecimalDigit c || c = '\u200c' || c = '\u200d')

/-- Whether a character, if there is one, is part of a word. -/
def wordAt (c : Option Char) : Bool :=
  (c.map isWord).getD false

/-- Whether one of some words, which are made of word characters, stands in a text between two word
boundaries. The character before the text is given. -/
def hasWord (words : List (List Char)) (before : Option Char) : List Char → Bool
  | [] => false
  | c :: cs =>
    (!wordAt before && words.any fun w =>
      w.isPrefixOf (c :: cs) && !wordAt ((c :: cs).drop w.length).head?)
    || hasWord words (some c) cs

example : hasWord ["if".toList] none "(if)".toList ∧ ¬ hasWord ["if".toList] none "iff".toList := by
  decide +kernel

example : ¬ hasWord ["if".toList] none "éif".toList ∧ hasWord ["if".toList] none "$if$".toList := by
  decide +kernel

example : isWord '\u0301' ∧ ¬ isWord '\u088f' ∧ isAlphabetic '\u088f' := by decide +kernel

end DeferredLog.Text
