import Mathlib.Data.List.TakeWhile
import DeferredLog.Proofs.Text.Position
import DeferredLog.SourceMap

/-!
# Looking up where text comes from

The segments of a line stand in the order of their columns, and a position comes from where the last of
them does that starts no later. Of a map whose segments are added from left to right, a new one covers
what stands behind it and changes nothing before it.

* `SourceMap.reach_eq`: how many segments of a line start no later than a column.
* `SourceMap.sorted_insertSegment`: a line stays in order.
* `SourceMap.origin?_eq`: the place that a position comes from, by the segments of its line.
* `SourceMap.origin?_addSegment_of_precedes`, `SourceMap.origin?_addSegment_of_reached`: what a segment
  behind all others changes.
-/

namespace DeferredLog

namespace SourceMap

/-! ## Lines in order -/

/-- The segments of a line stand in the order of their columns. -/
def Sorted (segments : List (Segment Nat)) : Prop :=
  segments.Pairwise fun a b => a.column ≤ b.column

instance (segments : List (Segment Nat)) : Decidable (Sorted segments) :=
  inferInstanceAs (Decidable (segments.Pairwise fun a b => a.column ≤ b.column))

section Line

variable {segments : List (Segment Nat)} {segment : Segment Nat} {column : Nat}

/-- Behind the segments up to a column all start later. -/
theorem Sorted.lt_of_mem_dropWhile (h : Sorted segments) :
    ∀ other ∈ segments.dropWhile (·.column ≤ column), column < other.column := by
  induction segments with
  | nil => simp
  | cons first rest ih =>
    obtain ⟨hfirst, hrest⟩ := List.pairwise_cons.mp h
    by_cases hc : first.column ≤ column
    · rw [List.dropWhile_cons_of_pos (by simpa using hc)]
      exact ih hrest
    · rw [List.dropWhile_cons_of_neg (by simpa using hc)]
      refine List.forall_mem_cons.mpr ⟨by omega, fun other hm => ?_⟩
      have := hfirst other hm
      omega

/-- In a line in order the segments up to a column come first. -/
theorem Sorted.any_getElem? (h : Sorted segments) (column i : Nat) :
    segments[i]?.any (·.column ≤ column) = true ↔
      i < (segments.takeWhile (·.column ≤ column)).length := by
  have hget : segments[i]? = (segments.takeWhile (·.column ≤ column) ++
      segments.dropWhile (·.column ≤ column))[i]? := by
    rw [List.takeWhile_append_dropWhile]
  rw [hget]
  by_cases hi : i < (segments.takeWhile (·.column ≤ column)).length
  · rw [List.getElem?_append_left hi, List.getElem?_eq_getElem hi]
    simpa [hi] using List.all_eq_true.mp List.all_takeWhile _ (List.getElem_mem hi)
  · rw [List.getElem?_append_right (by omega)]
    simp only [hi, iff_false, Bool.not_eq_true, Option.any_eq_false]
    intro other ho
    have := h.lt_of_mem_dropWhile other (List.mem_of_getElem? ho)
    simpa using this

theorem length_takeWhile_le {α : Type} (p : α → Bool) (l : List α) :
    (l.takeWhile p).length ≤ l.length :=
  (List.takeWhile_prefix p).length_le

/-- The number of segments of a line that start no later than a column. -/
theorem reach_eq (h : Sorted segments) (column : Nat) :
    reach segments column = (segments.takeWhile (·.column ≤ column)).length :=
  Search.boundary_eq (h.any_getElem? column) (length_takeWhile_le ..)

theorem insertIdx_takeWhile {α : Type} (p : α → Bool) (x : α) (l : List α) :
    l.insertIdx (l.takeWhile p).length x = l.takeWhile p ++ x :: l.dropWhile p := by
  induction l with
  | nil => rfl
  | cons y l ih => by_cases hy : p y = true <;> simp [hy, ih]

theorem insertSegment_eq (h : Sorted segments) : insertSegment segment segments =
    segments.takeWhile (·.column ≤ segment.column) ++
      segment :: segments.dropWhile (·.column ≤ segment.column) := by
  rw [insertSegment, reach_eq h, insertIdx_takeWhile]

/-- A segment comes behind those that start no later and before those that start later. -/
theorem exists_insertSegment_eq (h : Sorted segments) (segment : Segment Nat) :
    ∃ front behind, segments = front ++ behind ∧
      insertSegment segment segments = front ++ segment :: behind ∧
      (∀ other ∈ front, other.column ≤ segment.column) ∧
      ∀ other ∈ behind, segment.column < other.column :=
  ⟨_, _, List.takeWhile_append_dropWhile.symm, insertSegment_eq h,
    fun other hm => by simpa using List.all_eq_true.mp List.all_takeWhile other hm,
    h.lt_of_mem_dropWhile⟩

/-- A line stays in order. -/
theorem sorted_insertSegment (h : Sorted segments) (segment : Segment Nat) :
    Sorted (insertSegment segment segments) := by
  obtain ⟨front, behind, rfl, hinsert, hfront, hbehind⟩ := exists_insertSegment_eq h segment
  obtain ⟨hsorted, hsorted', -⟩ := List.pairwise_append.mp h
  rw [hinsert]
  refine List.pairwise_append.mpr ⟨hsorted,
    .cons (fun other hm => Nat.le_of_lt (hbehind other hm)) hsorted', fun a ha b hb => ?_⟩
  rcases List.mem_cons.mp hb with rfl | hb
  · exact hfront a ha
  · exact Nat.le_trans (hfront a ha) (Nat.le_of_lt (hbehind b hb))

/-- Behind all others of a line a segment is the last one. -/
theorem insertSegment_of_le (h : Sorted segments)
    (hle : ∀ other ∈ segments, other.column ≤ segment.column) :
    insertSegment segment segments = segments ++ [segment] := by
  have hall : ∀ other ∈ segments, decide (other.column ≤ segment.column) = true :=
    fun other hm => decide_eq_true (hle other hm)
  rw [insertSegment_eq h, List.takeWhile_eq_self_iff.mpr hall, List.dropWhile_eq_nil_iff.mpr hall]

end Line

/-! ## Maps in order -/

/-- The segments of a line of a map. -/
def segmentsAt (map : SourceMap) (line : Nat) : List (Segment Nat) :=
  map.lines[line]?.getD []

variable {map : SourceMap} {position other : Position} {segment : Segment Nat}

/-- The segment that covers a position, by the segments of its line. -/
theorem covering?_eq (h : Sorted (map.segmentsAt position.line)) : map.covering? position =
    ((map.segmentsAt position.line).takeWhile (·.column ≤ position.column)).getLast? := by
  rw [covering?, segmentsAt] at *
  cases hl : map.lines[position.line]? with
  | none => rfl
  | some segments =>
    rw [hl, Option.getD_some] at h
    simp only [Option.bind_eq_bind, Option.bind_some, Option.getD_some, reach_eq h]
    obtain ⟨rest, hrest⟩ := List.takeWhile_prefix (l := segments) (·.column ≤ position.column)
    rw [List.getLast?_eq_getElem?]
    cases hn : (segments.takeWhile (·.column ≤ position.column)).length with
    | zero => simp [List.length_eq_zero_iff.mp hn]
    | succ n =>
      have hlt : n < (segments.takeWhile (·.column ≤ position.column)).length := by omega
      have hget : (segments.takeWhile (·.column ≤ position.column) ++ rest)[n]? = _ :=
        List.getElem?_append_left hlt
      rw [hrest] at hget
      simp [hget]

/-- The place that a position comes from, by the segments of its line. -/
theorem origin?_eq (h : Sorted (map.segmentsAt position.line)) : map.origin? position =
    (((map.segmentsAt position.line).takeWhile (·.column ≤ position.column)).getLast?).bind
      (·.origin) := by
  rw [origin?, covering?_eq h]

theorem getElem?_insertAt (segment : Segment Nat) (line : Nat) (lines : List (List (Segment Nat)))
    (other : Nat) : (insertAt segment line lines)[other]?.getD [] =
      if other = line then insertSegment segment (lines[line]?.getD []) else lines[other]?.getD [] := by
  induction line generalizing lines other with
  | zero => cases lines <;> cases other <;> simp [insertAt]
  | succ line ih => cases lines <;> cases other <;> simp [insertAt, ih]

theorem segmentsAt_addSegment (map : SourceMap) (line : Nat) (segment : Segment Nat) (other : Nat) :
    (map.addSegment line segment).segmentsAt other =
      if other = line then insertSegment segment (map.segmentsAt line) else map.segmentsAt other :=
  getElem?_insertAt segment line map.lines other

/-- The lines of a map are in order, and all its segments start before a position. -/
structure Before (map : SourceMap) (position : Position) : Prop where
  /-- Each line is in order. -/
  sorted : ∀ line, Sorted (map.segmentsAt line)
  /-- No segment starts at the position or behind it. -/
  precedes : ∀ line, ∀ segment ∈ map.segmentsAt line,
    (Position.mk line segment.column).Precedes position

theorem Before.mono (h : map.Before position) (hp : position.Precedes other) : map.Before other :=
  ⟨h.sorted, fun line segment hm => (h.precedes line segment hm).trans hp⟩

/-- A segment behind all others ends up at the end of its line. -/
theorem Before.segmentsAt_addSegment (h : map.Before position)
    (hs : segment.column = position.column) (line : Nat) :
    (map.addSegment position.line segment).segmentsAt line =
      map.segmentsAt line ++ if line = position.line then [segment] else [] := by
  rw [SourceMap.segmentsAt_addSegment]
  split
  · rename_i hl
    subst hl
    refine insertSegment_of_le (h.sorted _) fun other hm => ?_
    have := h.precedes _ other hm
    simp only [Position.Precedes] at this
    omega
  · rw [List.append_nil]

theorem Before.addSegment (h : map.Before position) (hs : segment.column = position.column)
    (hp : position.Precedes other) : (map.addSegment position.line segment).Before other := by
  refine ⟨fun line => ?_, fun line other' hm => ?_⟩
  · rw [SourceMap.segmentsAt_addSegment]
    split
    · exact sorted_insertSegment (h.sorted _) segment
    · exact h.sorted line
  · rw [h.segmentsAt_addSegment hs] at hm
    rcases List.mem_append.mp hm with hm | hm
    · exact (h.precedes line other' hm).trans hp
    · split at hm
      · rename_i hl
        rw [List.mem_singleton.mp hm, hl, hs]
        exact hp
      · cases hm

theorem takeWhile_concat_of_neg {α : Type} {p : α → Bool} (l : List α) {x : α} (h : ¬ p x = true) :
    (l ++ [x]).takeWhile p = l.takeWhile p := by
  induction l with
  | nil => rw [List.nil_append, List.takeWhile_cons_of_neg h, List.takeWhile_nil]
  | cons y l ih => by_cases hy : p y = true <;> simp [hy, ih]

/-- A segment behind all others changes nothing before it. -/
theorem Before.origin?_of_precedes (h : map.Before position) (hs : segment.column = position.column)
    (hp : other.Precedes position) :
    (map.addSegment position.line segment).origin? other = map.origin? other := by
  have hsorted : Sorted ((map.addSegment position.line segment).segmentsAt other.line) := by
    rw [SourceMap.segmentsAt_addSegment]
    split
    · exact sorted_insertSegment (h.sorted _) segment
    · exact h.sorted _
  rw [origin?_eq hsorted, origin?_eq (h.sorted _), h.segmentsAt_addSegment hs]
  split
  · rename_i hl
    have hlt : ¬ segment.column ≤ other.column := by
      unfold Position.Precedes at hp
      omega
    rw [takeWhile_concat_of_neg _ (by simpa using hlt)]
  · rw [List.append_nil]

/-- A segment behind all others covers what stands behind it in its line. -/
theorem Before.origin?_of_reached (h : map.Before position) (hs : segment.column = position.column)
    (hl : other.line = position.line) (hc : position.column ≤ other.column) :
    (map.addSegment position.line segment).origin? other = segment.origin := by
  have hsegments := h.segmentsAt_addSegment hs other.line
  rw [if_pos hl] at hsegments
  have hall : ∀ s ∈ map.segmentsAt other.line ++ [segment], decide (s.column ≤ other.column) = true := by
    intro s hm
    rw [decide_eq_true_eq]
    rcases List.mem_append.mp hm with hm | hm
    · have := h.precedes _ s hm
      simp only [Position.Precedes] at this
      omega
    · rw [List.mem_singleton.mp hm]
      omega
  have hsorted : Sorted ((map.addSegment position.line segment).segmentsAt other.line) := by
    rw [SourceMap.segmentsAt_addSegment, if_pos hl]
    exact sorted_insertSegment (h.sorted _) segment
  rw [origin?_eq hsorted, hsegments, List.takeWhile_eq_self_iff.mpr hall]
  simp

end SourceMap

end DeferredLog
