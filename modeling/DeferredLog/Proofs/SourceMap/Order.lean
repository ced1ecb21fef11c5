import DeferredLog.Proofs.SourceMap.Lookup
import DeferredLog.Proofs.SourceMap.Reachable

/-!
# Loaded maps and the order of their lines

A position comes from where the last segment does among those of its line with the greatest column up to
its own. Looking one up finds that segment if the line is in order. Adding segments keeps lines in order,
but reading a map takes the segments of its text as they stand, so a line is in order exactly if no
column goes back.

* `SourceMap.latest?`: that segment, by a scan of the whole line.
* `SourceMap.origin?_eq_latest?`: in a line in order it is the one that is looked up.
* `Mappings.map_column_stepsToLines`: the columns that the differences of a text lead to.
* `SourceMap.sorted_of_parse`: which lines of a loaded map are in order, and what is found in them.
* `SourceMap.not_sorted_disordered`: a loaded map with a line that is not in order, where something else
  is found.
-/

namespace DeferredLog

namespace SourceMap

/-! ## A scan of the whole line -/

section Scan

variable {column : Nat} {segments : List (Segment Nat)}

/-- The better one of a segment and the best before it: the segment, if it starts no later than the
column and the best one no later than it. -/
def better (column : Nat) (best : Option (Segment Nat)) (segment : Segment Nat) :
    Option (Segment Nat) :=
  if segment.column ≤ column ∧ best.all (·.column ≤ segment.column) then some segment else best

/-- The last segment of a line among those with the greatest column up to the given one. -/
def latest? (column : Nat) (segments : List (Segment Nat)) : Option (Segment Nat) :=
  segments.foldl (better column) none

/-- Segments that start later are passed over. -/
theorem foldl_better_of_lt (best : Option (Segment Nat))
    (h : ∀ segment ∈ segments, column < segment.column) :
    segments.foldl (better column) best = best := by
  induction segments with
  | nil => rfl
  | cons first rest ih =>
    obtain ⟨hfirst, hrest⟩ := List.forall_mem_cons.mp h
    rw [List.foldl_cons, better, if_neg (by omega), ih hrest]

/-- In a line in order each segment up to the column is better than those before it. -/
theorem foldl_better_of_sorted {best : Option (Segment Nat)} (h : Sorted segments)
    (hbest : ∀ segment ∈ segments, best.all (·.column ≤ segment.column)) :
    segments.foldl (better column) best =
      ((segments.takeWhile (·.column ≤ column)).getLast?).or best := by
  induction segments generalizing best with
  | nil => rfl
  | cons first rest ih =>
    obtain ⟨hfirst, hrest⟩ := List.pairwise_cons.mp h
    by_cases hle : first.column ≤ column
    · have hall : ∀ segment ∈ rest, (some first).all (·.column ≤ segment.column) :=
        fun segment hm => decide_eq_true (hfirst segment hm)
      rw [List.foldl_cons, better, if_pos ⟨hle, hbest first List.mem_cons_self⟩, ih hrest hall,
        List.takeWhile_cons_of_pos (by simpa using hle), List.getLast?_cons]
      cases (rest.takeWhile (·.column ≤ column)).getLast? <;> rfl
    · rw [List.takeWhile_cons_of_neg (by simpa using hle)]
      refine foldl_better_of_lt best (List.forall_mem_cons.mpr ⟨by omega, fun segment hm => ?_⟩)
      have := hfirst segment hm
      omega

/-- **In a line in order** the scan finds the last segment up to the column. -/
theorem latest?_eq (h : Sorted segments) :
    latest? column segments = (segments.takeWhile (·.column ≤ column)).getLast? := by
  rw [latest?, foldl_better_of_sorted h fun _ _ => rfl, Option.or_none]

/-- **What is looked up in a line in order** is what the scan finds. -/
theorem origin?_eq_latest? {map : SourceMap} {position : Position}
    (h : Sorted (map.segmentsAt position.line)) :
    map.origin? position =
      (latest? position.column (map.segmentsAt position.line)).bind (·.origin) := by
  rw [origin?_eq h, latest?_eq h]

end Scan

end SourceMap

/-! ## The columns of a text -/

namespace Mappings

/-- The columns that the differences of a line lead to, from the given one on. -/
def columns (column : Int) : List (Segment Int) → List Int
  | [] => []
  | step :: steps => (column + step.column) :: columns (column + step.column) steps

/-- Within 32 bits the columns of the segments are the ones that the differences lead to. -/
theorem map_column_segmentsOf {base : Base} {steps : List (Segment Int)}
    (h : ∀ column ∈ columns base.column steps, Word column) :
    (segmentsOf base steps).1.map (·.column) = (columns base.column steps).map Int.toNat := by
  induction steps generalizing base with
  | nil => rfl
  | cons step steps ih =>
    obtain ⟨hstep, hsteps⟩ := List.forall_mem_cons.mp h
    obtain ⟨hlow, hhigh⟩ := hstep
    have hsum : Base.sum base.column step.column = base.column + step.column := by
      rw [words_eq] at hhigh
      have hcodes : Vlq.codes = 18446744073709551616 := rfl
      rw [Base.sum_eq_add (by omega)]
    have hcolumn : (base.add step).column = base.column + step.column := by
      rw [← hsum, Base.add]
      split <;> rfl
    have hword : (base.follow step).column = (base.column + step.column).toNat := by
      show Base.word (base.add step).column = _
      rw [hcolumn, Base.word, if_pos ⟨hlow, hhigh⟩]
    rw [segmentsOf, columns, List.map_cons, List.map_cons, hword, ih (by rw [hcolumn]; exact hsteps),
      hcolumn]

/-- The columns of each line start at zero. -/
theorem map_column_stepsToLines (base : Base) {lines : List (List (Segment Int))} {i : Nat}
    {steps : List (Segment Int)} (hi : lines[i]? = some steps)
    (h : ∀ column ∈ columns 0 steps, Word column) :
    ((stepsToLines base lines)[i]?.getD []).map (·.column) = (columns 0 steps).map Int.toNat := by
  induction lines generalizing base i with
  | nil => simp at hi
  | cons first lines ih =>
    cases i with
    | zero =>
      cases hi
      exact @map_column_segmentsOf base.newLine steps h
    | succ i => exact ih (segmentsOf base.newLine first).2 hi

theorem length_stepsToLines (base : Base) (lines : List (List (Segment Int))) :
    (stepsToLines base lines).length = lines.length := by
  induction lines generalizing base with
  | nil => rfl
  | cons steps lines ih => exact congrArg (· + 1) (ih _)

/-- Columns stand in order exactly if no difference behind the first is negative. -/
theorem pairwise_columns {column : Int} {steps : List (Segment Int)} :
    (column :: columns column steps).Pairwise (· ≤ ·) ↔ ∀ step ∈ steps, 0 ≤ step.column := by
  induction steps generalizing column with
  | nil => simp [columns]
  | cons step steps ih =>
    rw [columns, List.pairwise_cons, ih, List.forall_mem_cons, List.forall_mem_cons]
    constructor
    · rintro ⟨⟨hfirst, -⟩, hrest⟩
      exact ⟨by omega, hrest⟩
    · rintro ⟨hfirst, hrest⟩
      refine ⟨⟨by omega, fun other hm => ?_⟩, hrest⟩
      have := (List.pairwise_cons.mp (ih.mpr hrest)).1 other hm
      omega

theorem pairwise_columns_zero {steps : List (Segment Int)} :
    (columns 0 steps).Pairwise (· ≤ ·) ↔ ∀ step ∈ steps.tail, 0 ≤ step.column := by
  cases steps with
  | nil => simp [columns]
  | cons step steps => exact pairwise_columns

end Mappings

namespace SourceMap

/-! ## Lines of a loaded map -/

theorem sorted_iff {segments : List (Segment Nat)} :
    Sorted segments ↔ (segments.map (·.column)).Pairwise (· ≤ ·) :=
  List.pairwise_map.symm

/-- **Which lines of a loaded map are in order, and what is found in them.** The lines of the map are
those of the differences that its text has. One whose columns are within 32 bits is in order exactly if
no difference behind its first is negative, and for every position of a line in order the place that is
looked up is that of the last segment among those with the greatest column up to the position. -/
theorem sorted_of_parse {text : String} {map : SourceMap} (h : parse text = .ok map) :
    ∃ json mappings lines, Json.parse? text = some json ∧
      json.get? "mappings" = some (.string mappings) ∧
      (Text.splitOn ';' mappings.toList).mapM Mappings.lineOf = .ok lines ∧
      map.lines.length = lines.length ∧
      (∀ i steps, lines[i]? = some steps → (∀ column ∈ Mappings.columns 0 steps, Mappings.Word column) →
        (Sorted (map.segmentsAt i) ↔ ∀ step ∈ steps.tail, 0 ≤ step.column)) ∧
      ∀ position : Position, Sorted (map.segmentsAt position.line) →
        map.origin? position =
          (latest? position.column (map.segmentsAt position.line)).bind (·.origin) := by
  obtain ⟨json, mappings, hjson, hmappings, hdecode⟩ := exists_decode_of_parse h
  obtain ⟨lines, hlines, hmap⟩ := exists_of_bind hdecode
  have hmap : map.lines = Mappings.stepsToLines .zero lines := (Except.ok.inj hmap).symm
  refine ⟨json, mappings, lines, hjson, hmappings, hlines, ?_, fun i steps hi hwords => ?_,
    fun position => origin?_eq_latest?⟩
  · rw [hmap, Mappings.length_stepsToLines]
  · have hcolumns := Mappings.map_column_stepsToLines .zero hi hwords
    rw [← hmap] at hcolumns
    rw [← Mappings.pairwise_columns_zero, sorted_iff, segmentsAt, hcolumns, List.pairwise_map]
    refine List.Pairwise.iff_of_mem fun {a b} ha hb => ?_
    have hle := (hwords a ha).1
    have hle' := (hwords b hb).1
    omega

/-- A map of two lines. The columns of the second go back in its text. -/
def mixedOrder : String :=
  "\x7b\"version\":3,\"sources\":[\"a\"],\"mappings\":\"KAAA,CACA;EAAA,DACA\"\x7d"

theorem sorted_of_parse_mixed : ∃ map, parse mixedOrder = .ok map ∧ Sorted (map.segmentsAt 0) ∧
    ¬ Sorted (map.segmentsAt 1) ∧
    map.origin? ⟨0, 9⟩ = (latest? 9 (map.segmentsAt 0)).bind (·.origin) := by
  obtain ⟨map, hmap⟩ : ∃ map, parse mixedOrder = .ok map :=
    ⟨⟨none, ["a"], [], [], [[⟨5, some ⟨0, 0, 0, none⟩⟩, ⟨6, some ⟨0, 1, 0, none⟩⟩],
      [⟨2, some ⟨0, 1, 0, none⟩⟩, ⟨1, some ⟨0, 2, 0, none⟩⟩]]⟩, by decide +kernel⟩
  obtain ⟨json, mappings, lines, hjson, hmappings, hlines, -, hsorted, hscan⟩ := sorted_of_parse hmap
  have htext : ((Json.parse? mixedOrder).bind (·.get? "mappings")).bind Json.string? =
      some "KAAA,CACA;EAAA,DACA" := by decide +kernel
  rw [hjson, Option.bind_some, hmappings] at htext
  cases htext
  have hread : (Text.splitOn ';' "KAAA,CACA;EAAA,DACA".toList).mapM Mappings.lineOf =
      .ok [[⟨5, some ⟨0, 0, 0, none⟩⟩, ⟨1, some ⟨0, 1, 0, none⟩⟩],
        [⟨2, some ⟨0, 0, 0, none⟩⟩, ⟨-1, some ⟨0, 1, 0, none⟩⟩]] := by decide +kernel
  cases hlines.symm.trans hread
  have hfirst : Sorted (map.segmentsAt 0) := (hsorted 0 _ rfl (by decide)).mpr (by decide)
  exact ⟨map, hmap, hfirst, fun h => absurd ((hsorted 1 _ rfl (by decide)).mp h) (by decide),
    hscan ⟨0, 9⟩ hfirst⟩

/-- A map with columns that go back in its text. -/
def disordered : String :=
  "\x7b\"version\":3,\"sources\":[\"a\"],\"mappings\":\"KAAA,DACA\"\x7d"

/-- **A loaded map need not be in order**, and what is looked up in it need not be what a scan finds. -/
theorem not_sorted_disordered : ∃ map, parse disordered = .ok map ∧ ¬ Sorted (map.segmentsAt 0) ∧
    map.origin? ⟨0, 5⟩ = some ⟨0, 1, 0, none⟩ ∧
    (latest? 5 (map.segmentsAt 0)).bind (·.origin) = some ⟨0, 0, 0, none⟩ := by
  have hparse : parse disordered = .ok ⟨none, ["a"], [], [],
      [[⟨5, some ⟨0, 0, 0, none⟩⟩, ⟨4, some ⟨0, 1, 0, none⟩⟩]]⟩ := by decide +kernel
  exact ⟨_, hparse, by decide, by decide +kernel, by decide⟩

end SourceMap

end DeferredLog
