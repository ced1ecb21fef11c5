import DeferredLog.Text.Hex
import DeferredLog.Text.Size

/-!
# String literals

What a string literal stands for. `Literal.unescape` reads the text between the quotes: a backslash
with a letter, with the code of a character, with a line break, or with another character, which
then stands for itself. An impossible code becomes the replacement character.
-/

namespace DeferredLog

namespace Literal

/-- The character that stands for what cannot be decoded. -/
def replacement : Char := '\ufffd'

/-- The character with the code that some hexadecimal digits write. A plus sign may precede them. -/
def codePoint (digits : List Char) : Char :=
  let digits := match digits with
    | '+' :: c :: cs => c :: cs
    | cs => cs
  if digits.isEmpty then replacement
  else
    match Text.hexNumber? 0 digits with
    | none => replacement
    | some n => if h : n.isValidChar then Char.ofNatAux n h else replacement

/-- The character of an escape by one character that is neither a code nor a line break. -/
def letter (c : Char) : Char :=
  if c = 'n' then '\n'
  else if c = 't' then '\t'
  else if c = 'r' then '\r'
  else if c = 'b' then '\x08'
  else if c = 'f' then '\x0c'
  else if c = 'v' then '\x0b'
  else if c = '0' then '\x00'
  else c

/-- Whether a character behind a backslash continues the literal on the next line. -/
def continues (c : Char) : Bool :=
  c = '\r' || c = '\n' || c = '\u2028' || c = '\u2029'

/-- The characters that the text of a literal stands for. A backslash at its end is dropped. -/
def unescape : List Char → List Char
  | [] => []
  | ['\\'] => []
  | '\\' :: 'x' :: cs => codePoint (cs.take 2) :: unescape (cs.drop 2)
  | '\\' :: 'u' :: '\x7b' :: cs =>
    codePoint (cs.takeWhile (· != '\x7d')) :: unescape ((cs.dropWhile (· != '\x7d')).drop 1)
  | '\\' :: 'u' :: cs => codePoint (cs.take 4) :: unescape (cs.drop 4)
  | '\\' :: '\r' :: '\n' :: cs => unescape cs
  | '\\' :: c :: cs => if continues c then unescape cs else letter c :: unescape cs
  | c :: cs => c :: unescape cs
termination_by cs => cs.length
decreasing_by
  all_goals simp only [List.length_drop, List.length_cons]
  all_goals first
    | omega
    | exact Nat.lt_of_le_of_lt (Nat.le_trans (Nat.sub_le ..)
        (List.dropWhile_suffix (l := cs) (· != '\x7d')).length_le) (by omega)

/-- The value of a literal, its quotes included in the text. -/
def value (raw : List Char) : List Char :=
  unescape (Text.slice 1 (Text.size raw - 1) raw)

example : value "'a\\x41\\u\x7b1F600\x7d\\q'".toList = "aA😀q".toList := by cbv

end Literal

end DeferredLog
