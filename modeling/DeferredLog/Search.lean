/-!
# Search by halving

`Search.boundary p n` looks for the place where a property of the numbers below `n` stops holding.
It halves the range in question, and never looks at all of it.

* `boundary_le`: the place found is at most `n`.
* `boundary_eq`: when the property holds exactly below some place, that place is found.

On a property that comes and goes the place found is one where it stops, or an end of the range.
-/

namespace DeferredLog.Search

/-- The last number with the property, looked for in a range that starts at `base`. The answer is
`base` itself where no number behind it is found to have the property. -/
def narrow (p : Nat → Bool) (base size : Nat) : Nat :=
  if size ≤ 1 then base
  else if p (base + size / 2) then narrow p (base + size / 2) (size - size / 2)
  else narrow p base (size - size / 2)
termination_by size

/-- The place below which a property of the numbers below `size` holds. -/
def boundary (p : Nat → Bool) (size : Nat) : Nat :=
  if size = 0 then 0
  else
    let last := narrow p 0 size
    if p last then last + 1 else last

theorem narrow_lt (p : Nat → Bool) (base size : Nat) (h : 0 < size) :
    narrow p base size < base + size := by
  induction base, size using narrow.induct p with
  | case1 base size hsize =>
    rw [narrow, if_pos hsize]
    omega
  | case2 base size hsize hmid ih =>
    rw [narrow, if_neg hsize, if_pos hmid]
    have := ih (by omega)
    omega
  | case3 base size hsize hmid ih =>
    rw [narrow, if_neg hsize, if_neg hmid]
    have := ih (by omega)
    omega

theorem boundary_le (p : Nat → Bool) (size : Nat) : boundary p size ≤ size := by
  rw [boundary]
  split
  · omega
  · rename_i h
    have := narrow_lt p 0 size (by omega)
    dsimp only
    split <;> omega

/-- Where the property holds exactly below `k`, the last number that has it is found. -/
theorem narrow_eq {p : Nat → Bool} {k : Nat} (h : ∀ i, p i = true ↔ i < k) (base size : Nat)
    (hbase : base < k) (hk : k ≤ base + size) : narrow p base size = k - 1 := by
  induction base, size using narrow.induct p with
  | case1 base size hsize =>
    rw [narrow, if_pos hsize]
    omega
  | case2 base size hsize hmid ih =>
    rw [narrow, if_neg hsize, if_pos hmid]
    exact ih ((h _).mp hmid) (by omega)
  | case3 base size hsize hmid ih =>
    rw [narrow, if_neg hsize, if_neg hmid]
    have := mt (h _).mpr hmid
    exact ih hbase (by omega)

theorem narrow_of_false {p : Nat → Bool} (h : ∀ i, p i = false) (base size : Nat) :
    narrow p base size = base := by
  induction base, size using narrow.induct p with
  | case1 base size hsize => rw [narrow, if_pos hsize]
  | case2 base size hsize hmid ih => simp [h] at hmid
  | case3 base size hsize hmid ih => rw [narrow, if_neg hsize, if_neg hmid, ih]

/-- Where the property holds exactly below a place of the range, that place is found. -/
theorem boundary_eq {p : Nat → Bool} {k size : Nat} (h : ∀ i, p i = true ↔ i < k) (hk : k ≤ size) :
    boundary p size = k := by
  rw [boundary]
  split
  · omega
  · dsimp only
    by_cases hzero : k = 0
    · subst hzero
      have hp : ∀ i, p i = false := fun i => by
        have := h i
        simpa using this
      rw [narrow_of_false hp 0 size, hp 0]
      rfl
    · rw [narrow_eq h 0 size (by omega) (by omega), if_pos ((h _).mpr (by omega))]
      omega

end DeferredLog.Search
