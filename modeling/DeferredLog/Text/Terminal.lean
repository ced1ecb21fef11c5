/-!
# Texts for terminals

Controls can steer a terminal, alone or as the start of a sequence of characters: the escape control
starts one. `Text.plain` leaves out of a text all controls but white space, and all sequences.

A sequence is over with its last character, or where the cancel or the substitute control stands. The
escape control starts another one. White space inside a short sequence is not part of it: it is kept
with the characters that follow, up to the next control.

* `shows_of_mem_plain`: what is left are characters that show.
* `plain_of_shows`: a text of such characters stays as it is.
-/

namespace DeferredLog.Text

/-- Where in a sequence a text is. -/
inductive Sequence where
  /-- In none. -/
  | none
  /-- Behind the escape control. -/
  | escape
  /-- In a sequence of two or more characters behind the escape control. -/
  | intermediate
  /-- In a control sequence with parameters. -/
  | control
  /-- At the start of a device control string. -/
  | device
  /-- In the parameters of a device control string. -/
  | deviceParameter
  /-- Behind the parameters of a device control string. -/
  | deviceIntermediate
  /-- In a string that a byte of its own ends. -/
  | string
  /-- In a command to the operating system, which the bell ends. -/
  | command
  deriving DecidableEq, Repr

/-- Whether a character lies between two others, both included. -/
def isBetween (first last c : Char) : Bool :=
  first ≤ c && c ≤ last

/-- Whether a control is white space. -/
def isBlankControl (c : Char) : Bool :=
  c = '\t' || c = '\n' || c = '\x0C' || c = '\r'

/-- Whether a character shows where no sequence is: it is no control, or one that is white space. -/
def shows (c : Char) : Bool :=
  isBetween ' ' '~' c || 0x80 ≤ c.val || isBlankControl c

/-- The byte that ends a string. -/
def stringEnd : UInt8 := 0x9C

namespace Sequence

/-- Where a text is behind a character that does not show. -/
def next (sequence : Sequence) (c : Char) : Sequence :=
  if c = '\x1B' then .escape
  else if c = '\x18' || c = '\x1A' then .none
  else
    match sequence with
    | .none => .none
    | .escape =>
      if isBetween ' ' '/' c then .intermediate
      else if c = '[' then .control
      else if c = ']' then .command
      else if c = 'P' then .device
      else if c = 'X' || c = '^' || c = '_' then .string
      else if isBetween '0' '~' c then .none
      else .escape
    | .intermediate => if isBetween '0' '~' c then .none else .intermediate
    | .control => if isBetween '@' '~' c then .none else .control
    | .device =>
      if isBetween ' ' '/' c then .deviceIntermediate
      else if isBetween '0' '?' c then .deviceParameter
      else if isBetween '@' '~' c then .string
      else .device
    | .deviceParameter =>
      if isBetween ' ' '/' c then .deviceIntermediate
      else if isBetween '<' '~' c then .string
      else .deviceParameter
    | .deviceIntermediate => if isBetween '0' '~' c then .string else .deviceIntermediate
    | .string => if (String.utf8EncodeChar c).contains stringEnd then .none else .string
    | .command => if c = '\x07' then .none else .command

/-- Whether a character is no part of the sequence that a text is in. -/
def passes (sequence : Sequence) (c : Char) : Bool :=
  match sequence with
  | .none => true
  | .escape | .intermediate | .control => isBlankControl c
  | _ => false

end Sequence

/-- The characters of a text that show, told where in a sequence it starts, and whether in the midst
of characters that have shown. There, all that can show do, and one beyond ASCII ends the sequence
that was left open. -/
def plainFrom (sequence : Sequence) (amidst : Bool) : List Char → List Char
  | [] => []
  | c :: cs =>
    if shows c && (amidst || sequence.passes c) then
      c :: plainFrom (if 0x80 ≤ c.val then .none else sequence) true cs
    else plainFrom (sequence.next c) false cs

/-- A text without controls other than white space, and without sequences. -/
def plain (text : List Char) : List Char :=
  plainFrom .none false text

theorem shows_of_mem_plainFrom {sequence : Sequence} {amidst : Bool} {text : List Char} {c : Char}
    (h : c ∈ plainFrom sequence amidst text) : shows c = true := by
  induction text generalizing sequence amidst with
  | nil => simp [plainFrom] at h
  | cons d text ih =>
    rw [plainFrom] at h
    split at h
    · rename_i hd
      rcases List.mem_cons.mp h with rfl | h
      · exact (Bool.and_eq_true_iff.mp hd).1
      · exact ih h
    · exact ih h

theorem shows_of_mem_plain {text : List Char} {c : Char} (h : c ∈ plain text) : shows c = true :=
  shows_of_mem_plainFrom h

theorem plain_of_shows {text : List Char} (h : ∀ c ∈ text, shows c = true) : plain text = text := by
  suffices key : ∀ amidst, plainFrom .none amidst text = text from key false
  induction text with
  | nil => exact fun _ => rfl
  | cons c text ih =>
    intro amidst
    have hc := h c List.mem_cons_self
    rw [plainFrom, if_pos (by simp [hc, Sequence.passes]), ite_self,
      ih fun d hd => h d (List.mem_cons_of_mem c hd)]

example : plain "a\x1B[31mb\x1B[0mc\x07\x7Fé\t".toList = "abcé\t".toList := by decide +kernel

example : plain "a\x1B]0;b\x07c\x1B]0;d".toList = "ac".toList := by decide +kernel

end DeferredLog.Text
