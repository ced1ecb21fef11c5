/-!
# Texts measured in bytes and in code units

A text is a list of characters. Offsets into it count the bytes of its UTF-8 form, columns count
the code units of its UTF-16 form.

* `size` is the number of bytes, additive by `size_append`, and the byte size of the string made of
  the text by `utf8ByteSize_ofList`.
* `splitAt?` cuts a text at a byte offset, and fails exactly off the character boundaries:
  `splitAt?_eq_some_iff`.
* `slice` is the text between two offsets, empty when they are no boundaries in order.
-/

namespace DeferredLog.Text

/-- The number of bytes of a text in UTF-8. -/
def size : List Char → Nat
  | [] => 0
  | c :: cs => c.utf8Size + size cs

/-- The number of code units of a character in UTF-16: two beyond the basic plane. -/
def charUnits (c : Char) : Nat :=
  if c.toNat < 0x10000 then 1 else 2

/-- The number of code units of a text in UTF-16. -/
def units : List Char → Nat
  | [] => 0
  | c :: cs => charUnits c + units cs

@[simp]
theorem size_nil : size [] = 0 := rfl

@[simp]
theorem size_cons (c : Char) (cs : List Char) : size (c :: cs) = c.utf8Size + size cs := rfl

@[simp]
theorem size_append (a b : List Char) : size (a ++ b) = size a + size b := by
  induction a with
  | nil => simp
  | cons c a ih => simp [ih, Nat.add_assoc]

theorem length_le_size (cs : List Char) : cs.length ≤ size cs := by
  induction cs with
  | nil => exact Nat.le_refl 0
  | cons c cs ih =>
    have := c.utf8Size_pos
    simp only [List.length_cons, size_cons]
    omega

theorem size_pos {cs : List Char} (h : cs ≠ []) : 0 < size cs :=
  Nat.lt_of_lt_of_le (List.length_pos_iff.mpr h) (length_le_size cs)

@[simp]
theorem utf8ByteSize_ofList (cs : List Char) : (String.ofList cs).utf8ByteSize = size cs := by
  induction cs with
  | nil => rfl
  | cons c cs ih =>
    rw [String.ofList_cons, String.utf8ByteSize_append, String.utf8ByteSize_singleton, ih, size_cons]

/-- The text before and the text after a byte offset. There is none when the offset lies past the
end or inside a character. -/
def splitAt? : Nat → List Char → Option (List Char × List Char)
  | 0, cs => some ([], cs)
  | _ + 1, [] => none
  | n + 1, c :: cs =>
    if c.utf8Size ≤ n + 1 then
      (splitAt? (n + 1 - c.utf8Size) cs).map fun parts => (c :: parts.1, parts.2)
    else none

/-- A text can be cut at an offset exactly where its front part has that many bytes. -/
theorem splitAt?_eq_some_iff {n : Nat} {cs a b : List Char} :
    splitAt? n cs = some (a, b) ↔ cs = a ++ b ∧ size a = n := by
  induction cs generalizing n a b with
  | nil =>
    cases n with
    | zero => cases a <;> simp [splitAt?, eq_comm]
    | succ n => cases a <;> simp [splitAt?]
  | cons c cs ih =>
    have hc := c.utf8Size_pos
    cases n with
    | zero =>
      cases a with
      | nil => simp [splitAt?, eq_comm]
      | cons d a => simp [splitAt?, Nat.ne_of_gt d.utf8Size_pos]
    | succ n =>
      rw [splitAt?]
      split
      · rename_i hle
        cases a with
        | nil => simp
        | cons d a =>
          simp only [Option.map_eq_some_iff, Prod.mk.injEq, List.cons_append, List.cons.injEq,
            size_cons, Prod.exists]
          constructor
          · rintro ⟨x, y, h, ⟨rfl, rfl⟩, rfl⟩
            obtain ⟨rfl, hx⟩ := ih.mp h
            exact ⟨⟨rfl, rfl⟩, by omega⟩
          · rintro ⟨⟨rfl, rfl⟩, h⟩
            exact ⟨a, b, ih.mpr ⟨rfl, by omega⟩, ⟨rfl, rfl⟩, rfl⟩
      · rename_i hlt
        cases a with
        | nil => simp
        | cons d a =>
          simp only [reduceCtorEq, List.cons_append, List.cons.injEq, size_cons, false_iff, not_and]
          rintro ⟨rfl, -⟩
          omega

/-- The text between two byte offsets, empty unless both are boundaries of the text and in order. -/
def slice (start stop : Nat) (cs : List Char) : List Char :=
  if start ≤ stop then
    match splitAt? start cs with
    | some (_, rest) => ((splitAt? (stop - start) rest).map (·.1)).getD []
    | none => []
  else []

theorem slice_append (a b c : List Char) : slice (size a) (size a + size b) (a ++ (b ++ c)) = b := by
  have h₁ : splitAt? (size a) (a ++ (b ++ c)) = some (a, b ++ c) :=
    splitAt?_eq_some_iff.mpr ⟨rfl, rfl⟩
  have h₂ : splitAt? (size b) (b ++ c) = some (b, c) := splitAt?_eq_some_iff.mpr ⟨rfl, rfl⟩
  simp only [slice, Nat.le_add_right, if_true, h₁, Nat.add_sub_cancel_left, h₂, Option.map_some,
    Option.getD_some]

end DeferredLog.Text
