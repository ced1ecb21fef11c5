import DeferredLog.Proofs.Token.StringLiteral
import Mathlib.Data.Nat.Digits.Defs

/-!
# What a string literal stands for

A character can be written in a string literal as itself, by the letter that its escape has, as itself behind
a backslash, or by its code in hexadecimal digits: two of them, four of them, or any number in braces. Between
two characters the literal can go on in the next line. However a text is written, that text is the value of
the literal.

* `Text.hexNumber?_digits`: digits of either case are read as the number that they write.
* `Literal.Spelling.unescape_append`: each way to write a character is read as that character.
* `Literal.value_written`: the value of a literal is the text that it was made of.
-/

namespace DeferredLog

namespace Text

/-! ## Hexadecimal digits -/

/-- A hexadecimal digit as it is written. -/
structure HexDigit where
  /-- What it counts. -/
  value : Fin 16
  /-- Whether its letter is a capital one. -/
  capital : Bool
  deriving DecidableEq, Repr

namespace HexDigit

/-- The character that a digit is. -/
def char (digit : HexDigit) : Char :=
  if digit.capital then (Nat.digitChar digit.value).toUpper else Nat.digitChar digit.value

/-- The number that some digits write, the first of which counts most. -/
def number (digits : List HexDigit) : Nat :=
  Nat.ofDigits 16 (digits.reverse.map (·.value.val))

theorem hexValue?_char (digit : HexDigit) : hexValue? digit.char = some digit.value.val := by
  obtain ⟨value, capital⟩ := digit
  revert value capital
  decide

theorem char_ne (digit : HexDigit) : digit.char ≠ '+' ∧ digit.char ≠ '\x7b' ∧ digit.char ≠ '\x7d' := by
  obtain ⟨value, capital⟩ := digit
  revert value capital
  decide

theorem number_cons (digit : HexDigit) (digits : List HexDigit) :
    number (digit :: digits) = digit.value * 16 ^ digits.length + number digits := by
  simp only [number, List.reverse_cons, List.map_append, List.map_cons, List.map_nil, Nat.ofDigits_append,
    Nat.ofDigits_singleton, List.length_map, List.length_reverse]
  rw [Nat.add_comm, Nat.mul_comm]

end HexDigit

/-- Digits go on the number before them. -/
theorem hexNumber?_digits (n : Nat) (digits : List HexDigit) :
    hexNumber? n (digits.map HexDigit.char) = some (n * 16 ^ digits.length + HexDigit.number digits) := by
  induction digits generalizing n with
  | nil => simp [hexNumber?, HexDigit.number]
  | cons digit digits ih =>
    rw [List.map_cons, hexNumber?, HexDigit.hexValue?_char, Option.bind_some, ih, HexDigit.number_cons,
      List.length_cons, Nat.pow_succ]
    congr 1
    ring

end Text

namespace Literal

open Text (HexDigit)

/-- Digits that write the code of a character stand for it. -/
theorem codePoint_digits {c : Char} {digits : List HexDigit} (hne : digits ≠ [])
    (h : HexDigit.number digits = c.toNat) : codePoint (digits.map HexDigit.char) = c := by
  obtain ⟨digit, digits, rfl⟩ := List.exists_cons_of_ne_nil hne
  have hnumber := Text.hexNumber?_digits 0 (digit :: digits)
  rw [h, Nat.zero_mul, Nat.zero_add, List.map_cons] at hnumber
  have hplus : digit.char ≠ '+' := digit.char_ne.1
  have hvalid : c.toNat.isValidChar := c.valid
  unfold codePoint
  extract_lets read
  have hread : read = digit.char :: digits.map HexDigit.char := by
    unfold read
    split
    · rename_i hcons
      exact absurd (List.cons.inj hcons).1 hplus
    · rfl
  rw [if_neg (by simp [hread]), hread, hnumber]
  exact (dif_pos hvalid).trans rfl

/-! ## Spellings -/

/-- The letters of escapes, each with the character that it stands for. -/
def letters : List (Char × Char) :=
  [('n', '\n'), ('t', '\t'), ('r', '\r'), ('b', '\x08'), ('f', '\x0c'), ('v', '\x0b'), ('0', '\x00')]

/-- The characters that do not stand for themselves behind a backslash. -/
def special : List Char :=
  ['n', 't', 'r', 'b', 'f', 'v', '0', 'x', 'u', '\n', '\r', '\u2028', '\u2029']

/-- A way to write a character. -/
inductive Spelling where
  /-- As itself. -/
  | plain
  /-- By a backslash and the letter of its escape. -/
  | letter (name : Char)
  /-- By a backslash and itself. -/
  | escaped
  /-- By its code in two digits. -/
  | byte (digits : List HexDigit)
  /-- By its code in four digits. -/
  | unit (digits : List HexDigit)
  /-- By its code in digits between braces. -/
  | braced (digits : List HexDigit)
  deriving DecidableEq, Repr

namespace Spelling

/-- How a character is written. -/
def text (c : Char) : Spelling → List Char
  | plain => [c]
  | letter name => ['\\', name]
  | escaped => ['\\', c]
  | byte digits => '\\' :: 'x' :: digits.map HexDigit.char
  | unit digits => '\\' :: 'u' :: digits.map HexDigit.char
  | braced digits => '\\' :: 'u' :: '\x7b' :: (digits.map HexDigit.char ++ ['\x7d'])

/-- Whether a character can be written that way between the given quotes. -/
def Fits (quote c : Char) : Spelling → Prop
  | plain => c ≠ '\\' ∧ c ≠ quote ∧ c ≠ '\n' ∧ c ≠ '\r'
  | letter name => (name, c) ∈ letters
  | escaped => c ∉ special
  | byte digits => digits.length = 2 ∧ HexDigit.number digits = c.toNat
  | unit digits => digits.length = 4 ∧ HexDigit.number digits = c.toNat
  | braced digits => digits ≠ [] ∧ HexDigit.number digits = c.toNat

instance (quote c : Char) (spelling : Spelling) : Decidable (spelling.Fits quote c) :=
  match spelling with
  | plain => inferInstanceAs (Decidable (c ≠ '\\' ∧ c ≠ quote ∧ c ≠ '\n' ∧ c ≠ '\r'))
  | letter name => inferInstanceAs (Decidable ((name, c) ∈ letters))
  | escaped => inferInstanceAs (Decidable (c ∉ special))
  | byte digits => inferInstanceAs (Decidable (digits.length = 2 ∧ HexDigit.number digits = c.toNat))
  | unit digits => inferInstanceAs (Decidable (digits.length = 4 ∧ HexDigit.number digits = c.toNat))
  | braced digits => inferInstanceAs (Decidable (digits ≠ [] ∧ HexDigit.number digits = c.toNat))

end Spelling

/-- A part of a literal: a character that is written in some way, or the end of a line in between. -/
inductive Part where
  | char (c : Char) (spelling : Spelling)
  | continuation (lineEnd : LineEnd)
  deriving DecidableEq, Repr

namespace Part

/-- How a part is written. -/
def text : Part → List Char
  | char c spelling => spelling.text c
  | continuation lineEnd => '\\' :: lineEnd.chars

/-- The character that a part writes, if it is one. -/
def char? : Part → Option Char
  | char c _ => some c
  | continuation _ => none

/-- Whether a part can be written between the given quotes. -/
def Fits (quote : Char) : Part → Prop
  | char c spelling => spelling.Fits quote c
  | continuation _ => True

instance (quote : Char) (part : Part) : Decidable (part.Fits quote) :=
  match part with
  | char c spelling => inferInstanceAs (Decidable (spelling.Fits quote c))
  | continuation _ => .isTrue trivial

end Part

/-- A literal with the given parts. -/
def written (quote : Char) (parts : List Part) : List Char :=
  quote :: (parts.flatMap Part.text ++ [quote])

/-! ## Reading them back -/

/-- A character that is no backslash stands for itself. -/
theorem unescape_plain {c : Char} (h : c ≠ '\\') (cs : List Char) :
    unescape (c :: cs) = c :: unescape cs := by
  rw [unescape]
  all_goals
    intros
    exact h ‹_›

/-- A character behind a backslash that neither announces a code nor ends a line is one of an escape. -/
theorem unescape_letter {c : Char} (hx : c ≠ 'x') (hu : c ≠ 'u') (hc : continues c = false) (cs : List Char) :
    unescape ('\\' :: c :: cs) = letter c :: unescape cs := by
  have hr : c ≠ '\r' := by
    rintro rfl
    exact absurd hc (by decide)
  rw [unescape, if_neg (by simp [hc])]
  · exact fun h => hx h
  · exact fun _ h => absurd h hu
  · exact fun h => hu h
  · exact fun _ h => absurd h hr

variable {quote c : Char}

/-- **Every way to write a character is read as that character**, whatever follows. -/
theorem Spelling.unescape_append {spelling : Spelling} (h : spelling.Fits quote c) (cs : List Char) :
    unescape (spelling.text c ++ cs) = c :: unescape cs := by
  cases spelling with
  | plain => exact unescape_plain h.1 cs
  | letter name =>
    have hpair : name ≠ 'x' ∧ name ≠ 'u' ∧ continues name = false ∧ Literal.letter name = c := by
      have hall : ∀ pair ∈ letters, pair.1 ≠ 'x' ∧ pair.1 ≠ 'u' ∧ continues pair.1 = false ∧
          Literal.letter pair.1 = pair.2 := by decide
      exact hall (name, c) h
    obtain ⟨hx, hu, hc, hletter⟩ := hpair
    rw [← hletter]
    exact unescape_letter hx hu hc cs
  | escaped =>
    simp only [Fits, special, List.mem_cons, List.not_mem_nil, or_false, not_or] at h
    obtain ⟨hn, ht, hr, hb, hf, hv, h0, hx, hu, hlf, hcr, hls, hps⟩ := h
    have hc : continues c = false := by simp [continues, hlf, hcr, hls, hps]
    have hletter : Literal.letter c = c := by simp [Literal.letter, hn, ht, hr, hb, hf, hv, h0]
    have hread := unescape_letter hx hu hc cs
    rwa [hletter] at hread
  | byte digits =>
    obtain ⟨hlength, hnumber⟩ := h
    have hlength' : (digits.map HexDigit.char).length = 2 := by rw [List.length_map, hlength]
    rw [text, List.cons_append, List.cons_append, unescape, ← hlength', List.take_left, List.drop_left,
      codePoint_digits (by rintro rfl; cases hlength) hnumber]
  | unit digits =>
    obtain ⟨hlength, hnumber⟩ := h
    have hlength' : (digits.map HexDigit.char).length = 4 := by rw [List.length_map, hlength]
    have hne : digits ≠ [] := by
      rintro rfl
      cases hlength
    rw [text, List.cons_append, List.cons_append, unescape]
    · rw [← hlength', List.take_left, List.drop_left, codePoint_digits hne hnumber]
    · -- Four digits do not start with a brace.
      intro more hbrace
      obtain ⟨digit, digits, rfl⟩ := List.exists_cons_of_ne_nil hne
      exact digit.char_ne.2.1 (List.cons.inj hbrace).1
  | braced digits =>
    obtain ⟨hne, hnumber⟩ := h
    have hdigits : ∀ d ∈ digits.map HexDigit.char, (d != '\x7d') = true := by
      intro d hd
      obtain ⟨digit, -, rfl⟩ := List.mem_map.mp hd
      exact bne_iff_ne.mpr digit.char_ne.2.2
    rw [text, List.cons_append, List.cons_append, List.cons_append, List.append_assoc, unescape,
      List.takeWhile_append_of_pos hdigits, List.dropWhile_append_of_pos hdigits]
    simp [codePoint_digits hne hnumber]

/-- No part that fits starts with a line feed. -/
theorem Part.head?_text {part : Part} (h : part.Fits quote) (cs : List Char) :
    (part.text ++ cs).head? ≠ some '\n' := by
  cases part with
  | continuation lineEnd => simp [text]
  | char c spelling =>
    cases spelling with
    | plain =>
      intro hn
      exact h.2.2.1 (Option.some.inj hn)
    | letter | escaped | byte | unit | braced => simp [text, Spelling.text]

/-- Parts are read one after another. -/
theorem unescape_parts {parts : List Part} (h : ∀ part ∈ parts, part.Fits quote) :
    unescape (parts.flatMap Part.text) = parts.filterMap Part.char? := by
  induction parts with
  | nil =>
    rw [List.flatMap_nil, unescape]
    rfl
  | cons part parts ih =>
    obtain ⟨hpart, hparts⟩ := List.forall_mem_cons.mp h
    rw [List.flatMap_cons]
    cases part with
    | char c spelling =>
      rw [Part.text, Spelling.unescape_append hpart, ih hparts]
      rfl
    | continuation lineEnd =>
      -- A carriage return takes a line feed behind it along, but the next part does not start with one.
      have hnext : (parts.flatMap Part.text).head? ≠ some '\n' := by
        cases parts with
        | nil => simp
        | cons next parts => exact Part.head?_text (hparts next List.mem_cons_self) _
      rw [List.filterMap_cons_none rfl, ← ih hparts]
      exact unescape_continuation fun _ => hnext

/-- **The value of a literal is the text that it was made of**, however its characters are written and
wherever it goes on in the next line. -/
theorem value_written {parts : List Part} (hquote : quote = '"' ∨ quote = '\'')
    (h : ∀ part ∈ parts, part.Fits quote) :
    value (written quote parts) = parts.filterMap Part.char? := by
  have hsize : Text.size [quote] = 1 := by rcases hquote with rfl | rfl <;> rfl
  have hslice := Text.slice_append [quote] (parts.flatMap Part.text) [quote]
  have hstop : Text.size (written quote parts) - 1 =
      Text.size [quote] + Text.size (parts.flatMap Part.text) := by
    have hwhole : Text.size (written quote parts) =
        Text.size [quote] + Text.size (parts.flatMap Part.text ++ [quote]) := Text.size_append [quote] _
    rw [hwhole, Text.size_append]
    omega
  rw [value, hstop, ← hsize]
  exact (congrArg unescape hslice).trans (unescape_parts h)

/-- All ways to write characters, next to each other and with lines that end in between. -/
def sampleParts : List Part :=
  [.char 'n' .plain, .char '\n' (.letter 'n'), .continuation .carriageReturn, .char '\\' .escaped,
    .char 'A' (.byte [⟨4, false⟩, ⟨1, false⟩]), .char '1' .plain, .continuation .both,
    .char 'é' (.unit [⟨0, false⟩, ⟨0, false⟩, ⟨14, true⟩, ⟨9, false⟩]), .char '\'' .escaped,
    .char '😀' (.braced [⟨0, false⟩, ⟨1, false⟩, ⟨15, false⟩, ⟨6, false⟩, ⟨0, false⟩, ⟨0, false⟩]),
    .char '\x7d' .plain, .continuation .lineSeparator, .char '\x00' (.letter '0')]

theorem value_written_sample : (∀ part ∈ sampleParts, part.Fits '\'') ∧
    written '\'' sampleParts =
      "'n\\n\\\r\\\\\\x411\\\r\n\\u00E9\\'\\u\x7b01f600\x7d\x7d\\\u2028\\0'".toList ∧
    value (written '\'' sampleParts) = "n\n\\A1é'😀\x7d\x00".toList := by
  have hfits : ∀ part ∈ sampleParts, part.Fits '\'' := by decide +kernel
  refine ⟨hfits, by decide +kernel, (value_written (.inr rfl) hfits).trans (by decide +kernel)⟩

end Literal

end DeferredLog
