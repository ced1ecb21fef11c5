import DeferredLog.Proofs.SourceMap.Mappings

/-!
# Numbers of 64 bits read back

A number of 64 bits is read back from its text, and what stands behind it is left alone. There is one
exception: the least number has no opposite of 64 bits, its absolute value times two leaves nothing in a
code, and its text is read as zero.

* `Vlq.two_mul_natAbs_lt_iff`: the numbers that fit into a code with their sign.
* `Vlq.Reads`: reading numbers one after another; `Vlq.numbers_eq_ok_iff` says when that takes up a text.
* `Vlq.read_encode_iff`: the numbers that are read back, alone and one after another.
-/

namespace DeferredLog.Vlq

/-! ## One number -/

/-- The least number of 64 bits is the only one that does not fit into a code. -/
theorem two_mul_natAbs_lt_iff (number : Int64) :
    2 * number.toInt.natAbs < codes ↔ number ≠ Int64.minValue := by
  have hcodes : codes = 18446744073709551616 := rfl
  have hleast : Int64.minValue.toInt = -9223372036854775808 := rfl
  have hlow := number.le_toInt
  have hhigh := number.toInt_lt
  rw [ne_eq, ← Int64.toInt_inj, hleast]
  omega

/-- The text of the least number is read as zero. -/
theorem read_encode_minValue (rest : List Char) :
    read (encode Int64.minValue.toInt ++ rest) = .ok (0, rest) := by
  have hvalue : value (code Int64.minValue.toInt % codes) = 0 := by decide +kernel
  simp only [read, encode, readCode_digits, Except.map, hvalue]

variable {number : Int64} {rest : List Char}

/-- **A number is read back exactly if it is not the least one.** -/
theorem read_encode_eq_iff : read (encode number.toInt ++ rest) = .ok (number.toInt, rest) ↔
    number ≠ Int64.minValue := by
  refine ⟨fun h heq => ?_, fun h => read_encode ((two_mul_natAbs_lt_iff number).mpr h) rest⟩
  subst heq
  rw [read_encode_minValue] at h
  have hzero : (0 : Int) = Int64.minValue.toInt := (Prod.mk.inj (Except.ok.inj h)).1
  exact absurd hzero (by decide)

/-- Whatever is read, it is read off the text of the number alone. -/
theorem exists_read_encode (number : Int64) (rest : List Char) :
    ∃ found, read (encode number.toInt ++ rest) = .ok (found, rest) := by
  by_cases h : number = Int64.minValue
  · exact ⟨0, h ▸ read_encode_minValue rest⟩
  · exact ⟨number.toInt, read_encode_eq_iff.mpr h⟩

/-! ## One number after another -/

/-- Numbers are read off the front of a text one after another, and leave the rest of it. -/
inductive Reads : List Char → List Int → List Char → Prop
  | nil (text : List Char) : Reads text [] text
  | cons {text mid rest : List Char} {number : Int} {numbers : List Int} :
    read text = .ok (number, mid) → Reads mid numbers rest → Reads text (number :: numbers) rest

variable {text : List Char} {numbers : List Int}

theorem reads_nil_iff : Reads text [] rest ↔ text = rest := by
  constructor
  · rintro ⟨⟩
    rfl
  · rintro rfl
    exact .nil text

theorem reads_cons_iff {number : Int} : Reads text (number :: numbers) rest ↔
    ∃ mid, read text = .ok (number, mid) ∧ Reads mid numbers rest := by
  constructor
  · rintro (_ | ⟨hread, hrest⟩)
    exact ⟨_, hread, hrest⟩
  · rintro ⟨mid, hread, hrest⟩
    exact .cons hread hrest

/-- A text consists of some numbers exactly if reading them leaves nothing of it. -/
theorem numbers_eq_ok_iff : Mappings.numbers text = .ok numbers ↔ Reads text numbers [] := by
  constructor
  · intro h
    -- By the length of the text, as each number takes some of it.
    induction hn : text.length using Nat.strongRecOn generalizing text numbers with
    | ind n ih =>
      by_cases hne : text = []
      · subst hne
        rw [Mappings.numbers_nil] at h
        cases h
        exact .nil []
      cases hread : read text with
      | error fault =>
        rw [Mappings.numbers_of_fault hne hread] at h
        cases h
      | ok found =>
        rw [Mappings.numbers_of_read hread] at h
        cases hrest : Mappings.numbers found.2 with
        | error fault =>
          rw [hrest] at h
          cases h
        | ok others =>
          rw [hrest] at h
          cases h
          exact .cons hread (ih _ (hn ▸ length_read hread) hrest rfl)
  · intro h
    generalize hrest : [] = rest at h
    induction h with
    | nil text => exact hrest ▸ Mappings.numbers_nil
    | cons hread _ ih => rw [Mappings.numbers_of_read hread, ih hrest]; rfl

/-- The numbers of some texts are read back exactly if the least one is not among them. -/
theorem reads_flatMap_encode_iff {values : List Int64} :
    Reads ((values.flatMap fun value => encode value.toInt) ++ rest) (values.map Int64.toInt) rest ↔
      Int64.minValue ∉ values := by
  induction values with
  | nil => simp [reads_nil_iff]
  | cons value values ih =>
    rw [List.flatMap_cons, List.append_assoc, List.map_cons, reads_cons_iff, List.mem_cons, not_or,
      ← ih, eq_comm, ← ne_eq, ← read_encode_eq_iff]
    constructor
    · rintro ⟨mid, hread, hrest⟩
      obtain ⟨found, hfound⟩ := exists_read_encode value
        ((values.flatMap fun value => encode value.toInt) ++ rest)
      cases hfound.symm.trans hread
      exact ⟨hread, hrest⟩
    · rintro ⟨hread, hrest⟩
      exact ⟨_, hread, hrest⟩

/-- **Reading undoes writing for all numbers of 64 bits but the least one**, and for no others: whatever
follows the text of a number, the number is read and just its text is taken. So some numbers that were
written one behind the other are read one after another, also where they make up the whole text. -/
theorem read_encode_iff :
    (∀ (number : Int64) (rest : List Char),
      read (encode number.toInt ++ rest) = .ok (number.toInt, rest) ↔ number ≠ Int64.minValue) ∧
    (∀ (values : List Int64) (rest : List Char),
      Reads ((values.flatMap fun value => encode value.toInt) ++ rest) (values.map Int64.toInt) rest ↔
        Int64.minValue ∉ values) ∧
    ∀ values : List Int64,
      Mappings.numbers (values.flatMap fun value => encode value.toInt) = .ok (values.map Int64.toInt) ↔
        Int64.minValue ∉ values := by
  refine ⟨fun _ _ => read_encode_eq_iff, fun _ _ => reads_flatMap_encode_iff, fun values => ?_⟩
  have hreads : Reads ((values.flatMap fun value => encode value.toInt) ++ []) (values.map Int64.toInt) [] ↔
    Int64.minValue ∉ values := reads_flatMap_encode_iff
  rwa [List.append_nil, ← numbers_eq_ok_iff] at hreads

end DeferredLog.Vlq
