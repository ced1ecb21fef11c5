import DeferredLog.Text.Blank
import DeferredLog.Text.Name
import DeferredLog.Text.Word

/-!
# Classes of characters

How the classes of characters lie to one another. Two sets of ranges are compared range by range, and
below U+0080 a class is what it has of letters and digits and of a few single characters.

* `Ranges.has_eq_false_of_apart`: of two sets that lie apart no character is in both.
* `not_isNamePart_of_isSign`, `not_isWord_of_isSign`: signs are no parts of names or words.
* `not_isNamePart_of_blank`, `not_isWord_of_blank`: nor is white space or a byte order mark.
-/

namespace DeferredLog.Text

/-! ## Sets given by ranges -/

/-- Whether no range of a set meets one of another set. -/
def Ranges.apart (a b : Ranges) : Bool :=
  a.all fun r => b.all fun s => Nat.blt r.2 s.1 || Nat.blt s.2 r.1

variable {a b : Ranges} {c : Char}

theorem Ranges.has_eq_false_of_apart (h : a.apart b = true) (hc : a.has c = true) :
    b.has c = false := by
  obtain ⟨r, hr, hlo, hhi⟩ := (Ranges.has_iff a c).mp hc
  rw [Bool.eq_false_iff]
  intro hb
  obtain ⟨s, hs, hlo', hhi'⟩ := (Ranges.has_iff b c).mp hb
  have := List.all_eq_true.mp (List.all_eq_true.mp h r hr) s hs
  simp only [Bool.or_eq_true, Nat.blt_eq] at this
  omega

/-- The first half of the scalar values of one byte. -/
def asciiRanges : Ranges := [(0x0, 0x7F)]

theorem ascii_has (h : c.val < 0x80) : asciiRanges.has c = true :=
  (Ranges.has_iff _ _).mpr ⟨_, List.mem_cons_self, Nat.zero_le _, Nat.le_of_lt_succ h⟩

theorem not_has_of_ascii (hb : asciiRanges.apart b = true) (h : c.val < 0x80) : b.has c = false :=
  Ranges.has_eq_false_of_apart hb (ascii_has h)

/-! ## Letters, digits and signs -/

/-- Below U+0080 the parts of words are letters, digits and the low line. -/
theorem isWord_of_ascii (h : c.val < 0x80) : isWord c = (c.isAlphanum || c = '_') := by
  have hrecent : isRecent c = false := not_has_of_ascii (by decide +kernel) h
  have hmark : markRanges.has c = false := not_has_of_ascii (by decide +kernel) h
  have hjoiner : c ≠ '\u200c' ∧ c ≠ '\u200d' := ⟨by rintro rfl; exact absurd h (by decide),
    by rintro rfl; exact absurd h (by decide)⟩
  simp only [isWord, hrecent, isAlphabetic, h, isMark, hmark, isDecimalDigit, hjoiner, Char.isAlphanum]
  cases c.isAlpha <;> cases c.isDigit <;> simp

/-- Below U+0080 the parts of names are letters, digits, the low line and the dollar sign. -/
theorem isNamePart_of_ascii (h : c.val < 0x80) :
    isNamePart c = (c.isAlphanum || c = '_' || c = '$') := by
  have hjoiner : c ≠ '\u200c' ∧ c ≠ '\u200d' := ⟨by rintro rfl; exact absurd h (by decide),
    by rintro rfl; exact absurd h (by decide)⟩
  simp only [isNamePart, isNameStart, isAlphabetic, h, isNumber, hjoiner, Char.isAlphanum]
  cases c.isAlpha <;> cases c.isDigit <;> simp [Bool.or_comm]

/-- Whether a character below U+0080 is no part of names. -/
def isSign (c : Char) : Bool :=
  c.val < 0x80 && !(c.isAlphanum || c = '_' || c = '$')

theorem not_isNamePart_of_isSign (h : isSign c = true) : isNamePart c = false := by
  rw [isSign, Bool.and_eq_true, decide_eq_true_eq, Bool.not_eq_true'] at h
  rw [isNamePart_of_ascii h.1, h.2]

theorem not_isWord_of_isSign (h : isSign c = true) : isWord c = false := by
  rw [isSign, Bool.and_eq_true, decide_eq_true_eq, Bool.not_eq_true', Bool.or_eq_false_iff] at h
  rw [isWord_of_ascii h.1, h.2.1]

/-- A letter lies between the first and the last of its case. -/
theorem bounds_of_isAlpha (h : c.isAlpha = true) :
    (0x41 ≤ c.toNat ∧ c.toNat ≤ 0x5A) ∨ (0x61 ≤ c.toNat ∧ c.toNat ≤ 0x7A) := by
  replace h : (decide (c.val ≥ 'A'.val ∧ c.val ≤ 'Z'.val) ||
      (decide (c.val ≥ 'a'.val) && decide (c.val ≤ 'z'.val))) = true := h
  rw [Bool.or_eq_true, Bool.and_eq_true] at h
  rcases h with h | h
  · exact .inl (of_decide_eq_true h)
  · exact .inr ⟨of_decide_eq_true h.1, of_decide_eq_true h.2⟩

/-- A digit lies between the first and the last of them. -/
theorem bounds_of_isDigit (h : c.isDigit = true) : 0x30 ≤ c.toNat ∧ c.toNat ≤ 0x39 := by
  replace h : (decide (c.val ≥ '0'.val) && decide (c.val ≤ '9'.val)) = true := h
  rw [Bool.and_eq_true] at h
  exact ⟨of_decide_eq_true h.1, of_decide_eq_true h.2⟩

/-- A letter or digit lies between the first and the last of its kind. -/
theorem bounds_of_isAlphanum (h : c.isAlphanum = true) :
    (0x41 ≤ c.toNat ∧ c.toNat ≤ 0x5A) ∨ (0x61 ≤ c.toNat ∧ c.toNat ≤ 0x7A) ∨
      (0x30 ≤ c.toNat ∧ c.toNat ≤ 0x39) := by
  rcases Bool.or_eq_true_iff.mp h with h | h
  · exact (bounds_of_isAlpha h).imp_right .inl
  · exact .inr (.inr (bounds_of_isDigit h))

theorem val_lt_of_isAlphanum (h : c.isAlphanum = true) : c.val < 0x80 := by
  have hbounds := bounds_of_isAlphanum h
  show c.toNat < 0x80
  omega

/-- Letters and digits continue names. -/
theorem isNamePart_of_isAlphanum (h : c.isAlphanum = true) : isNamePart c = true := by
  rw [isNamePart_of_ascii (val_lt_of_isAlphanum h), h]
  rfl

theorem not_isLineBreak_of_isAlpha (h : c.isAlpha = true) : isLineBreak c = false := by
  rw [Bool.eq_false_iff]
  intro hbreak
  simp only [isLineBreak, Bool.or_eq_true, decide_eq_true_eq] at hbreak
  rcases hbreak with ((rfl | rfl) | rfl) | rfl <;> exact absurd h (by decide)

/-! ## White space -/

/-- The scalar values of white space and of the byte order mark. -/
def blankOrMark : Ranges :=
  blankRanges ++ [(0xFEFF, 0xFEFF)]

/-- The scalar values of the parts of names and words that no table has. -/
def plainParts : Ranges :=
  [(0x24, 0x24), (0x30, 0x39), (0x41, 0x5A), (0x5F, 0x5F), (0x61, 0x7A), (0x200C, 0x200D)]

/-- The scalar values of parts of names and of words. -/
def partRanges : Ranges :=
  plainParts ++ (alphabeticRanges ++ (markRanges ++ (decimalDigitRanges ++ otherNumberRanges)))

theorem blankOrMark_apart : blankOrMark.apart partRanges = true := by
  decide +kernel

theorem partRanges_has (c : Char) : partRanges.has c = (plainParts.has c || (alphabeticRanges.has c ||
    (markRanges.has c || (decimalDigitRanges.has c || otherNumberRanges.has c)))) := by
  simp only [partRanges, Ranges.has, List.any_append]

theorem plainParts_has (h : c.isAlphanum = true) : plainParts.has c = true := by
  rw [Ranges.has_iff]
  rcases bounds_of_isAlphanum h with h | h | h
  · exact ⟨(0x41, 0x5A), by simp [plainParts], h⟩
  · exact ⟨(0x61, 0x7A), by simp [plainParts], h⟩
  · exact ⟨(0x30, 0x39), by simp [plainParts], h⟩

theorem has_of_isAlphabetic (h : isAlphabetic c = true) :
    plainParts.has c = true ∨ alphabeticRanges.has c = true := by
  rw [isAlphabetic] at h
  split at h
  · exact .inl (plainParts_has (by simp [Char.isAlphanum, h]))
  · exact .inr h

theorem has_of_isNamePart (h : isNamePart c = true) : partRanges.has c = true := by
  simp only [isNamePart, isNameStart, Bool.or_eq_true, decide_eq_true_eq] at h
  simp only [partRanges_has, Bool.or_eq_true]
  rcases h with ((((rfl | rfl) | h) | h) | rfl) | rfl
  · exact .inl (by decide)
  · exact .inl (by decide)
  · exact (has_of_isAlphabetic h).imp id .inl
  · rw [isNumber] at h
    split at h
    · exact .inl (plainParts_has (by simp [Char.isAlphanum, h]))
    · exact .inr (.inr (.inr ((Bool.or_eq_true _ _).mp h)))
  · exact .inl (by decide)
  · exact .inl (by decide)

theorem has_of_isWord (h : isWord c = true) : partRanges.has c = true := by
  simp only [isWord, isMark, Bool.and_eq_true, Bool.or_eq_true, decide_eq_true_eq] at h
  simp only [partRanges_has, Bool.or_eq_true]
  rcases h.2 with (((h | rfl | h) | h) | rfl) | rfl
  · exact (has_of_isAlphabetic h).imp id .inl
  · exact .inl (by decide)
  · exact .inr (.inr (.inl h))
  · rw [isDecimalDigit] at h
    split at h
    · exact .inl (plainParts_has (by simp [Char.isAlphanum, h]))
    · exact .inr (.inr (.inr (.inl h)))
  · exact .inl (by decide)
  · exact .inl (by decide)

theorem not_has_of_blank (h : (isBlank c || c = '\ufeff') = true) : partRanges.has c = false := by
  refine Ranges.has_eq_false_of_apart blankOrMark_apart ?_
  rw [Bool.or_eq_true, decide_eq_true_eq] at h
  rw [blankOrMark, Ranges.has, List.any_append, Bool.or_eq_true]
  rcases h with h | rfl
  · exact .inl h
  · exact .inr (by decide)

/-- White space and the byte order mark are no parts of names. -/
theorem not_isNamePart_of_blank (h : (isBlank c || c = '\ufeff') = true) : isNamePart c = false := by
  have hnone := not_has_of_blank h
  rw [Bool.eq_false_iff]
  intro hpart
  rw [has_of_isNamePart hpart] at hnone
  cases hnone

/-- White space and the byte order mark are no parts of words. -/
theorem not_isWord_of_blank (h : (isBlank c || c = '\ufeff') = true) : isWord c = false := by
  have hnone := not_has_of_blank h
  rw [Bool.eq_false_iff]
  intro hword
  rw [has_of_isWord hword] at hnone
  cases hnone

end DeferredLog.Text
