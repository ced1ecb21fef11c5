import Mathlib.Data.List.Induction
import DeferredLog.Proofs.SourceMap.Order

/-!
# Maps made by adding segments

Segments are added in any order of lines and columns. Each line of the map that comes of it is the stable
order of the segments added to it, and a position is looked up as by a scan of the additions.

* `SourceMap.filter_insertSegment`: a segment comes behind those of its column.
* `SourceMap.covering?_addSegment`: what one more segment changes for a position.
* `SourceMap.latest?_eq_some_iff`: which segment a scan finds.
* `SourceMap.lines_addAll`: the lines of a map, their number, and what is looked up in them.
-/

namespace DeferredLog.SourceMap

variable {map : SourceMap} {position : Position} {segment : Segment Nat}
  {segments : List (Segment Nat)} {column : Nat}

/-! ## One segment -/

theorem insertSegment_perm (h : Sorted segments) (segment : Segment Nat) :
    (insertSegment segment segments).Perm (segment :: segments) := by
  obtain ⟨front, behind, rfl, hinsert, -, -⟩ := exists_insertSegment_eq h segment
  rw [hinsert]
  exact List.perm_middle

/-- A segment comes behind those of its column, and the order of the others stays as it was. -/
theorem filter_insertSegment (h : Sorted segments) (segment : Segment Nat) (column : Nat) :
    (insertSegment segment segments).filter (·.column = column) =
      segments.filter (·.column = column) ++
        if segment.column = column then [segment] else [] := by
  obtain ⟨front, behind, rfl, hinsert, -, hbehind⟩ := exists_insertSegment_eq h segment
  rw [hinsert, List.filter_append, List.filter_append, List.filter_cons]
  by_cases hc : segment.column = column
  · have hnone : behind.filter (·.column = column) = [] :=
      List.filter_eq_nil_iff.mpr fun other hm => by
        have := hbehind other hm
        simp only [decide_eq_true_eq]
        omega
    rw [hnone, if_pos (decide_eq_true hc), if_pos hc, List.append_nil]
  · rw [if_neg (by simpa using hc), if_neg hc, List.append_nil]

/-- In a line in order the segments up to a column are those that come first. -/
theorem Sorted.takeWhile_eq_filter (h : Sorted segments) (column : Nat) :
    segments.takeWhile (·.column ≤ column) = segments.filter (·.column ≤ column) := by
  have hcut := List.takeWhile_append_dropWhile (p := (·.column ≤ column)) (l := segments)
  have hfront : (segments.takeWhile (·.column ≤ column)).filter (·.column ≤ column) =
      segments.takeWhile (·.column ≤ column) :=
    List.filter_eq_self.mpr fun other hm => List.all_eq_true.mp List.all_takeWhile other hm
  have hbehind : (segments.dropWhile (·.column ≤ column)).filter (·.column ≤ column) = [] :=
    List.filter_eq_nil_iff.mpr fun other hm => by
      have := h.lt_of_mem_dropWhile other hm
      simp only [decide_eq_true_eq]
      omega
  have hsplit := congrArg (List.filter (·.column ≤ column)) hcut
  rw [List.filter_append, hfront, hbehind, List.append_nil] at hsplit
  exact hsplit

theorem getLast?_insertSegment (h : Sorted segments) (segment : Segment Nat) (column : Nat) :
    ((insertSegment segment segments).filter (·.column ≤ column)).getLast? =
      better column (segments.filter (·.column ≤ column)).getLast? segment := by
  obtain ⟨front, behind, rfl, hinsert, hfront, hbehind⟩ := exists_insertSegment_eq h segment
  rw [hinsert, List.filter_append, List.filter_append, List.filter_cons, better]
  by_cases hc : segment.column ≤ column
  · rw [if_pos (by simpa using hc), List.getLast?_append, List.getLast?_append, List.getLast?_cons]
    cases hlast : (behind.filter (·.column ≤ column)).getLast? with
    | none =>
      -- All that start up to the column stand before the segment.
      have hall : (front.filter (·.column ≤ column)).getLast?.all
          (·.column ≤ segment.column) = true :=
        (Option.all_eq_true _ _).mpr fun other hm =>
          decide_eq_true (hfront other (List.mem_filter.mp (List.mem_of_getLast? hm)).1)
      rw [Option.none_or, if_pos ⟨hc, hall⟩]
      rfl
    | some other =>
      have hlt := hbehind other (List.mem_filter.mp (List.mem_of_getLast? hlast)).1
      have hnot : ¬ other.column ≤ segment.column := by omega
      simp [hnot]
  · rw [if_neg (by simpa using hc), if_neg fun h => hc h.1]

/-- **What one more segment changes for a position**: it covers it if it is in its line, starts no later
than it, and no earlier than what covered it. -/
theorem covering?_addSegment (h : ∀ line, Sorted (map.segmentsAt line)) (line : Nat)
    (segment : Segment Nat) (position : Position) :
    (map.addSegment line segment).covering? position =
      if position.line = line then better position.column (map.covering? position) segment
      else map.covering? position := by
  have hsorted : Sorted ((map.addSegment line segment).segmentsAt position.line) := by
    rw [segmentsAt_addSegment]
    split
    · exact sorted_insertSegment (h _) segment
    · exact h _
  rw [covering?_eq hsorted, covering?_eq (h _), hsorted.takeWhile_eq_filter,
    (h _).takeWhile_eq_filter, segmentsAt_addSegment]
  split
  · rename_i hl
    rw [getLast?_insertSegment (h line), hl]
  · rfl

theorem length_insertAt (segment : Segment Nat) (line : Nat) (lines : List (List (Segment Nat))) :
    (insertAt segment line lines).length = max (line + 1) lines.length := by
  induction line generalizing lines with
  | zero => cases lines <;> simp [insertAt]
  | succ line ih => cases lines <;> simp [insertAt, ih]

/-! ## A scan of the additions -/

/-- A segment reaches a column: of those that start no later than the column it has the greatest one, and
of those with this one it is the last. -/
def Reaches (segments : List (Segment Nat)) (column : Nat) (found : Segment Nat) : Prop :=
  ∃ before after, segments = before ++ found :: after ∧ found.column ≤ column ∧
    (∀ other ∈ before, other.column ≤ column → other.column ≤ found.column) ∧
    ∀ other ∈ after, other.column ≤ column → other.column < found.column

/-- No other segment that starts no later than the column is behind the one that reaches it. -/
theorem Reaches.le {found other : Segment Nat} (h : Reaches segments column found)
    (hm : other ∈ segments) (hle : other.column ≤ column) : other.column ≤ found.column := by
  obtain ⟨before, after, rfl, -, hbefore, hafter⟩ := h
  rcases List.mem_append.mp hm with hm | hm
  · exact hbefore other hm hle
  · rcases List.mem_cons.mp hm with rfl | hm
    · exact Nat.le_refl _
    · exact Nat.le_of_lt (hafter other hm hle)

/-- One segment at most reaches a column. -/
theorem Reaches.unique {a b : Segment Nat} (ha : Reaches segments column a)
    (hb : Reaches segments column b) : a = b := by
  -- Of two of them the one behind the other would start later.
  have hcolumn : a.column = b.column := by
    obtain ⟨_, _, ha', hac, -⟩ := id ha
    obtain ⟨_, _, hb', hbc, -⟩ := id hb
    exact Nat.le_antisymm (hb.le (by simp [ha']) hac) (ha.le (by simp [hb']) hbc)
  obtain ⟨before, after, he, hac, -, hafter⟩ := ha
  obtain ⟨before', after', he', hbc, -, hafter'⟩ := hb
  rcases List.append_eq_append_iff.mp (he.symm.trans he') with ⟨m, -, hm⟩ | ⟨m, -, hm⟩
  · cases m with
    | nil => exact (List.cons.inj hm).1
    | cons first m =>
      obtain ⟨-, rfl⟩ := List.cons.inj hm
      have := hafter b (by simp) hbc
      omega
  · cases m with
    | nil => exact (List.cons.inj hm).1.symm
    | cons first m =>
      obtain ⟨-, rfl⟩ := List.cons.inj hm
      have := hafter' a (by simp) hac
      omega

theorem reaches_concat_self (segments : List (Segment Nat)) (hle : segment.column ≤ column)
    (hall : ∀ other ∈ segments, other.column ≤ column → other.column ≤ segment.column) :
    Reaches (segments ++ [segment]) column segment :=
  ⟨segments, [], rfl, hle, hall, fun _ hm => absurd hm List.not_mem_nil⟩

theorem Reaches.concat {found : Segment Nat} (h : Reaches segments column found)
    (hlt : segment.column ≤ column → segment.column < found.column) :
    Reaches (segments ++ [segment]) column found := by
  obtain ⟨before, after, rfl, hle, hbefore, hafter⟩ := h
  refine ⟨before, after ++ [segment], by simp, hle, hbefore, fun other hm hother => ?_⟩
  rcases List.mem_append.mp hm with hm | hm
  · exact hafter other hm hother
  · obtain rfl := List.mem_singleton.mp hm
    exact hlt hother

theorem latest?_concat (column : Nat) (segments : List (Segment Nat)) (segment : Segment Nat) :
    latest? column (segments ++ [segment]) =
      better column (latest? column segments) segment :=
  List.foldl_append

/-- What a scan finds reaches the column, and it finds nothing only where nothing does. -/
theorem reaches_latest? (segments : List (Segment Nat)) (column : Nat) :
    (∀ found, latest? column segments = some found → Reaches segments column found) ∧
      (latest? column segments = none → ∀ other ∈ segments, column < other.column) := by
  induction segments using List.reverseRecOn with
  | nil => exact ⟨fun _ h => absurd h.symm (Option.some_ne_none _), fun _ _ hm => absurd hm List.not_mem_nil⟩
  | append_singleton segments segment ih =>
    obtain ⟨hfound, hnone⟩ := ih
    rw [latest?_concat, better]
    by_cases hbetter : segment.column ≤ column ∧
        (latest? column segments).all (·.column ≤ segment.column) = true
    · obtain ⟨hle, hall⟩ := hbetter
      rw [if_pos ⟨hle, hall⟩]
      refine ⟨fun found h => ?_, fun h => absurd h (Option.some_ne_none _)⟩
      obtain rfl := Option.some.inj h
      refine reaches_concat_self segments hle fun other hm hother => ?_
      cases hlast : latest? column segments with
      | none =>
        have := hnone hlast other hm
        omega
      | some best =>
        rw [hlast] at hall
        have hbest : best.column ≤ segment.column := by simpa using hall
        exact Nat.le_trans ((hfound best hlast).le hm hother) hbest
    · rw [if_neg hbetter]
      refine ⟨fun found h => (hfound found h).concat fun hle => ?_, fun h other hm => ?_⟩
      · rw [h] at hbetter
        simpa [hle] using hbetter
      · rcases List.mem_append.mp hm with hm | hm
        · exact hnone h other hm
        · obtain rfl := List.mem_singleton.mp hm
          rw [h] at hbetter
          simpa using hbetter

/-- **A scan finds the segment that reaches the column.** -/
theorem latest?_eq_some_iff {found : Segment Nat} :
    latest? column segments = some found ↔ Reaches segments column found := by
  obtain ⟨hfound, hnone⟩ := reaches_latest? segments column
  refine ⟨hfound found, fun h => ?_⟩
  cases hlast : latest? column segments with
  | none =>
    obtain ⟨before, after, rfl, hle, -⟩ := h
    have := hnone hlast found (by simp)
    omega
  | some other => rw [(hfound other hlast).unique h]

/-! ## Any additions -/

/-- The map with some segments added one after the other, each to a line. -/
def addAll (map : SourceMap) (added : List (Nat × Segment Nat)) : SourceMap :=
  added.foldl (fun map add => map.addSegment add.1 add.2) map

/-- The segments of some additions that go to a line. -/
def addedTo (line : Nat) (added : List (Nat × Segment Nat)) : List (Segment Nat) :=
  (added.filter (·.1 = line)).map (·.2)

theorem addedTo_cons (line : Nat) (add : Nat × Segment Nat) (added : List (Nat × Segment Nat)) :
    addedTo line (add :: added) =
      if line = add.1 then add.2 :: addedTo line added else addedTo line added := by
  by_cases h : line = add.1
  · simp [addedTo, h]
  · simp [addedTo, h, Ne.symm h]

theorem sorted_addSegment (h : ∀ line, Sorted (map.segmentsAt line)) (line : Nat)
    (segment : Segment Nat) (other : Nat) :
    Sorted ((map.addSegment line segment).segmentsAt other) := by
  rw [segmentsAt_addSegment]
  split
  · exact sorted_insertSegment (h line) segment
  · exact h other

theorem sorted_addAll (h : ∀ line, Sorted (map.segmentsAt line)) (added : List (Nat × Segment Nat))
    (line : Nat) : Sorted ((map.addAll added).segmentsAt line) := by
  induction added generalizing map with
  | nil => exact h line
  | cons add added ih => exact ih (sorted_addSegment h add.1 add.2)

/-- Each line holds what it held before and what was added to it. -/
theorem segmentsAt_addAll_perm (h : ∀ line, Sorted (map.segmentsAt line))
    (added : List (Nat × Segment Nat)) (line : Nat) :
    ((map.addAll added).segmentsAt line).Perm (map.segmentsAt line ++ addedTo line added) := by
  induction added generalizing map with
  | nil => exact .of_eq (List.append_nil _).symm
  | cons add added ih =>
    refine (ih (sorted_addSegment h add.1 add.2)).trans ?_
    rw [segmentsAt_addSegment, addedTo_cons]
    split
    · rename_i hl
      rw [hl]
      exact ((insertSegment_perm (h _) add.2).append_right _).trans List.perm_middle.symm
    · exact .refl _

/-- The segments of one column stand in the order in which they were added. -/
theorem filter_segmentsAt_addAll (h : ∀ line, Sorted (map.segmentsAt line))
    (added : List (Nat × Segment Nat)) (line column : Nat) :
    ((map.addAll added).segmentsAt line).filter (·.column = column) =
      (map.segmentsAt line).filter (·.column = column) ++
        (addedTo line added).filter (·.column = column) := by
  induction added generalizing map with
  | nil => exact (List.append_nil _).symm
  | cons add added ih =>
    rw [addAll, List.foldl_cons, ← addAll, ih (sorted_addSegment h add.1 add.2),
      segmentsAt_addSegment, addedTo_cons]
    split
    · rename_i hl
      rw [hl, filter_insertSegment (h _), List.append_assoc, List.filter_cons]
      by_cases hc : add.2.column = column <;> simp [hc]
    · rfl

/-- **A position is looked up as by a scan of the additions.** -/
theorem covering?_addAll (h : ∀ line, Sorted (map.segmentsAt line))
    (added : List (Nat × Segment Nat)) (position : Position) :
    (map.addAll added).covering? position =
      (addedTo position.line added).foldl (better position.column) (map.covering? position) := by
  induction added generalizing map with
  | nil => rfl
  | cons add added ih =>
    rw [addAll, List.foldl_cons, ← addAll, ih (sorted_addSegment h add.1 add.2),
      covering?_addSegment h, addedTo_cons]
    split <;> rfl

theorem lt_length_addAll (added : List (Nat × Segment Nat)) (n : Nat) :
    n < (map.addAll added).lines.length ↔ n < map.lines.length ∨ ∃ add ∈ added, n ≤ add.1 := by
  induction added generalizing map with
  | nil => simp [addAll]
  | cons add added ih =>
    have hlength := length_insertAt add.2 add.1 map.lines
    have hmax : n < max (add.1 + 1) map.lines.length ↔ n ≤ add.1 ∨ n < map.lines.length := by
      omega
    rw [addAll, List.foldl_cons, ← addAll, ih, addSegment, hlength, hmax]
    simp only [List.mem_cons, exists_eq_or_imp]
    rw [or_assoc, or_left_comm]

/-- A map of additions has lines up to the last one that any of them goes to. -/
theorem length_addAll_empty (file : Option String) (added : List (Nat × Segment Nat)) :
    ((empty file).addAll added).lines.length = ((added.map (·.1)).max?.map (· + 1)).getD 0 := by
  have hlt := @lt_length_addAll (empty file) added
  have hnone : (empty file).lines.length = 0 := rfl
  cases hmax : (added.map (·.1)).max? with
  | none =>
    rw [List.map_eq_nil_iff.mp (List.max?_eq_none_iff.mp hmax)]
    rfl
  | some last =>
    obtain ⟨hm, hall⟩ := List.max?_eq_some_iff.mp hmax
    obtain ⟨add, hadd, rfl⟩ := List.mem_map.mp hm
    have hreached := (hlt add.1).mpr (.inr ⟨add, hadd, Nat.le_refl _⟩)
    have hpast : ¬ add.1 + 1 < ((empty file).addAll added).lines.length := by
      rw [hlt]
      rintro (h | ⟨other, hother, h⟩)
      · omega
      · have := hall other.1 (List.mem_map_of_mem hother)
        omega
    rw [Option.map_some, Option.getD_some]
    omega

/-- **The lines of a map of any additions, and what is looked up in them.** Each line holds the segments
that were added to it, in the order of their columns, and those of one column in the order in which they
were added. There are lines up to the last one that a segment was added to. A position comes from where
the segment does that reaches it among those added to its line, and from nowhere if there is none or if
that one comes from nowhere. -/
theorem lines_addAll (file : Option String) (added : List (Nat × Segment Nat)) :
    (∀ line, (((empty file).addAll added).segmentsAt line).Perm (addedTo line added) ∧
      Sorted (((empty file).addAll added).segmentsAt line) ∧
      ∀ column, (((empty file).addAll added).segmentsAt line).filter (·.column = column) =
        (addedTo line added).filter (·.column = column)) ∧
    ((empty file).addAll added).lines.length = ((added.map (·.1)).max?.map (· + 1)).getD 0 ∧
    ∀ position : Position,
      (∀ origin, ((empty file).addAll added).origin? position = some origin ↔
        ∃ segment, Reaches (addedTo position.line added) position.column segment ∧
          segment.origin = some origin) ∧
      (((empty file).addAll added).origin? position = none ↔
        ∀ segment, Reaches (addedTo position.line added) position.column segment →
          segment.origin = none) := by
  have hempty : ∀ line, Sorted ((empty file).segmentsAt line) := fun _ => List.Pairwise.nil
  refine ⟨fun line => ⟨segmentsAt_addAll_perm hempty added line, sorted_addAll hempty added line,
    filter_segmentsAt_addAll hempty added line⟩, length_addAll_empty file added, fun position => ?_⟩
  have hcovering : ((empty file).addAll added).covering? position =
      latest? position.column (addedTo position.line added) := covering?_addAll hempty added position
  rw [origin?, hcovering]
  constructor
  · intro origin
    rw [Option.bind_eq_some_iff]
    simp only [latest?_eq_some_iff]
  · rw [Option.bind_eq_none_iff]
    simp only [latest?_eq_some_iff]

/-- Segments of two lines from right to left, two of them in one column and one that comes from nowhere. -/
def scattered : List (Nat × Segment Nat) :=
  [(2, ⟨9, none⟩), (0, ⟨4, some ⟨0, 7, 1, none⟩⟩), (2, ⟨3, some ⟨0, 5, 0, none⟩⟩),
    (2, ⟨3, some ⟨0, 6, 0, none⟩⟩)]

theorem lines_addAll_scattered :
    Reaches (addedTo 2 scattered) 8 ⟨3, some ⟨0, 6, 0, none⟩⟩ ∧
      ((empty none).addAll scattered).origin? ⟨2, 8⟩ = some ⟨0, 6, 0, none⟩ ∧
      Reaches (addedTo 2 scattered) 9 ⟨9, none⟩ ∧
      ((empty none).addAll scattered).origin? ⟨2, 9⟩ = none ∧
      ((empty none).addAll scattered).lines.length = 3 := by
  obtain ⟨-, hlength, hlookup⟩ := lines_addAll none scattered
  have hlast : Reaches (addedTo 2 scattered) 8 ⟨3, some ⟨0, 6, 0, none⟩⟩ :=
    latest?_eq_some_iff.mp (by decide +kernel)
  have hnowhere : Reaches (addedTo 2 scattered) 9 ⟨9, none⟩ :=
    latest?_eq_some_iff.mp (by decide +kernel)
  refine ⟨hlast, ((hlookup ⟨2, 8⟩).1 _).mpr ⟨_, hlast, rfl⟩, hnowhere,
    (hlookup ⟨2, 9⟩).2.mpr fun segment h => ?_, hlength.trans (by decide +kernel)⟩
  rw [h.unique hnowhere]

end DeferredLog.SourceMap
