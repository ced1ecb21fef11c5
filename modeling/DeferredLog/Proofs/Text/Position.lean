import DeferredLog.Text.Position

/-!
# Positions and offsets

A walk over a text reaches one position behind the next, so no position is reached twice. That is why the way
from an offset to its position can be gone back.

* `Position.precedes_next`: every character leads on.
* `Position.offset?_eq_some_iff`: the offset of a position is the size of the text that leads to it.
* `Position.offset?_ofOffset`: the position of a boundary between two characters leads back to it.
-/

namespace DeferredLog

theorem Text.charUnits_pos (c : Char) : 0 < Text.charUnits c := by
  rw [charUnits]
  split <;> omega

namespace Position

/-! ## Order -/

/-- A position stands before another one. -/
def Precedes (a b : Position) : Prop :=
  a.line < b.line ∨ a.line = b.line ∧ a.column < b.column

theorem Precedes.trans {a b c : Position} (hab : a.Precedes b) (hbc : b.Precedes c) :
    a.Precedes c := by
  unfold Precedes at *
  omega

theorem Precedes.ne {a b : Position} (h : a.Precedes b) : a ≠ b := by
  rintro rfl
  unfold Precedes at h
  omega

theorem precedes_next (position : Position) (c : Char) : position.Precedes (position.next c) := by
  unfold next Precedes
  split
  · exact .inl (Nat.lt_succ_self _)
  · exact .inr ⟨rfl, Nat.lt_add_of_pos_right (Text.charUnits_pos c)⟩

theorem Precedes.after {a b : Position} (h : a.Precedes b) (text : List Char) :
    a.Precedes (b.after text) := by
  induction text generalizing b with
  | nil => exact h
  | cons c text ih => exact ih (h.trans (precedes_next b c))

theorem after_concat (position : Position) (text : List Char) (c : Char) :
    position.after (text ++ [c]) = (position.after text).next c := by
  simp

/-- A text reaches the start of a line where it is empty or ends with a line feed. -/
theorem column_after_zero (text : List Char) :
    (zero.after text).column = 0 ↔ text = [] ∨ text.getLast? = some '\n' := by
  rcases List.eq_nil_or_concat text with rfl | ⟨front, c, rfl⟩
  · simp [zero]
  · have := Text.charUnits_pos c
    simp only [List.concat_eq_append, after_concat, next]
    split <;> simp_all
    omega

/-! ## The way back -/

theorem search?_eq_some_iff {position target : Position} {offset found : Nat} {cs : List Char} :
    search? position target offset cs = some found ↔
      ∃ a b, cs = a ++ b ∧ position.after a = target ∧ offset + Text.size a = found := by
  induction cs generalizing position offset with
  | nil =>
    rw [search?]
    simp only [List.nil_eq_append_iff]
    constructor
    · intro h
      split at h
      · rename_i hreached
        exact ⟨[], [], ⟨rfl, rfl⟩, hreached, Option.some.inj h⟩
      · cases h
    · rintro ⟨_, _, ⟨rfl, rfl⟩, rfl, rfl⟩
      simp
  | cons c cs ih =>
    rw [search?]
    constructor
    · intro h
      split at h
      · rename_i hreached
        exact ⟨[], c :: cs, rfl, hreached, Option.some.inj h⟩
      · obtain ⟨a, b, rfl, hreached, hfound⟩ := ih.mp h
        exact ⟨c :: a, b, rfl, hreached, by rw [← hfound, Text.size_cons]; omega⟩
    · rintro ⟨a, b, hcut, hreached, hfound⟩
      cases a with
      | nil =>
        rw [if_pos (show position = target from hreached), ← hfound]
        rfl
      | cons d a =>
        obtain ⟨rfl, rfl⟩ := List.cons.inj hcut
        -- What is reached behind a character was not reached before it.
        have hon : position.Precedes target := hreached ▸ (precedes_next position c).after a
        rw [if_neg hon.ne]
        exact ih.mpr ⟨a, b, rfl, hreached, by rw [← hfound, Text.size_cons]; omega⟩

/-- The offset of a position is the size of the text in front that leads to it. -/
theorem offset?_eq_some_iff {source : List Char} {position : Position} {offset : Nat} :
    offset? source position = some offset ↔
      ∃ a b, source = a ++ b ∧ zero.after a = position ∧ Text.size a = offset := by
  simp only [offset?, search?_eq_some_iff, Nat.zero_add]

/-- The position of a boundary between two characters leads back to the boundary. -/
theorem offset?_ofOffset (a b : List Char) :
    offset? (a ++ b) (ofOffset (a ++ b) (Text.size a)) = some (Text.size a) :=
  offset?_eq_some_iff.mpr ⟨a, b, rfl, (ofOffset_size a b).symm, rfl⟩

end Position

end DeferredLog
