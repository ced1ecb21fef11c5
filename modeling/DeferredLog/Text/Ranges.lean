/-!
# Sets of characters given by ranges

A property of characters is stored as the list of its ranges of scalar values, both ends included.
`Ranges.has` asks whether a character lies in one of them; `Ranges.has_iff` says so in words.
-/

namespace DeferredLog.Text

/-- A set of scalar values as a list of ranges, each with its first and its last member. -/
abbrev Ranges := List (Nat × Nat)

/-- Whether a character lies in one of the ranges. -/
def Ranges.has (ranges : Ranges) (c : Char) : Bool :=
  ranges.any fun range => range.1 ≤ c.toNat && c.toNat ≤ range.2

theorem Ranges.has_iff (ranges : Ranges) (c : Char) :
    ranges.has c = true ↔ ∃ range ∈ ranges, range.1 ≤ c.toNat ∧ c.toNat ≤ range.2 := by
  simp [Ranges.has]

end DeferredLog.Text
