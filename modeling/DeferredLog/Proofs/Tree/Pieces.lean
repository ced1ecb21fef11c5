import DeferredLog.Tree

/-!
# Trees at a separator

Where `pieces` and `cutAt` cut trees of which it is known what stands before the first separator:
everything before it is in the first piece.
-/

namespace DeferredLog

namespace Tree

variable {separator : Tree → Bool} {tree : Tree} {trees front rest first : List Tree}
  {others : List (List Tree)}

theorem pieces_ne_nil (separator : Tree → Bool) (trees : List Tree) : pieces separator trees ≠ [] := by
  cases trees with
  | nil => simp [pieces]
  | cons tree trees =>
    rw [pieces]
    split
    · simp
    · split <;> simp

theorem betweenCommas_ne_nil (trees : List Tree) : betweenCommas trees ≠ [] :=
  pieces_ne_nil _ trees

/-- Trees without a separator belong to the first piece behind them. -/
theorem pieces_append (hf : ∀ t ∈ front, separator t = false)
    (hr : pieces separator rest = first :: others) :
    pieces separator (front ++ rest) = (front ++ first) :: others := by
  induction front with
  | nil => exact hr
  | cons t front ih =>
    have ih := ih fun u hu => hf u (List.mem_cons_of_mem _ hu)
    simp only [List.cons_append, pieces, hf t List.mem_cons_self, ih]
    rfl

/-- Trees without a separator are one piece. -/
theorem pieces_eq_singleton (hf : ∀ t ∈ trees, separator t = false) :
    pieces separator trees = [trees] := by
  have h := pieces_append hf (show pieces separator [] = [[]] from rfl)
  simpa using h

/-- The first separator ends the first piece. -/
theorem pieces_append_cons (hf : ∀ t ∈ front, separator t = false) (hs : separator tree = true) :
    pieces separator (front ++ tree :: rest) = front :: pieces separator rest := by
  have hr : pieces separator (tree :: rest) = [] :: pieces separator rest := by
    rw [pieces, if_pos hs]
  rw [pieces_append hf hr, List.append_nil]

/-- Trees without a separator are not cut. -/
theorem cutAt_eq_none (hf : ∀ t ∈ trees, separator t = false) :
    cutAt separator trees = (trees, none) := by
  induction trees with
  | nil => rfl
  | cons t trees ih =>
    rw [cutAt, hf t List.mem_cons_self, ih fun u hu => hf u (List.mem_cons_of_mem _ hu)]
    rfl

/-- The first separator is where trees are cut. -/
theorem cutAt_append_cons (hf : ∀ t ∈ front, separator t = false) (hs : separator tree = true) :
    cutAt separator (front ++ tree :: rest) = (front, some rest) := by
  induction front with
  | nil => rw [List.nil_append, cutAt, if_pos hs]
  | cons t front ih =>
    rw [List.cons_append, cutAt, hf t List.mem_cons_self,
      ih fun u hu => hf u (List.mem_cons_of_mem _ hu)]
    rfl

end Tree

end DeferredLog
