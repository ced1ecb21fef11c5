import Mathlib.Data.List.InsertIdx
import DeferredLog.Proofs.SourceMap.Parse

/-!
# Maps made by any sequence of steps

A map is made by adding sources, names and segments to an empty one or to one that was read from a text.
Whatever the order of the steps, each field of its segments fits into 32 bits: a field that is added is
of that size, and one that is read is cut to it. So the text of such a map is read back.

* `Mappings.fits_of_decode`: the fields of what is read fit.
* `SourceMap.Reachable`: the maps that steps lead to.
* `SourceMap.Reachable.fits`: the fields of such a map fit.
* `SourceMap.parse_text_of_reachable`: its text is read back.
-/

namespace DeferredLog

namespace Mappings

/-! ## What is read fits -/

theorem word_lt (value : Int) : Base.word value < Base.words := by
  rw [Base.word]
  split
  · rename_i h
    have := h.2
    omega
  · decide

/-- Whatever the differences, the segment that they lead to fits. -/
theorem fits_follow (base : Base) (step : Segment Int) : Fits (base.follow step) := by
  refine ⟨word_lt _, fun origin ho => ?_⟩
  obtain ⟨found, -, rfl⟩ := Option.map_eq_some_iff.mp ho
  refine ⟨word_lt _, word_lt _, word_lt _, fun name hn => ?_⟩
  obtain ⟨-, -, rfl⟩ := Option.map_eq_some_iff.mp hn
  exact word_lt _

theorem fits_segmentsOf (base : Base) (steps : List (Segment Int)) :
    ∀ segment ∈ (segmentsOf base steps).1, Fits segment := by
  induction steps generalizing base with
  | nil => simp [segmentsOf]
  | cons step steps ih => exact List.forall_mem_cons.mpr ⟨fits_follow base step, ih _⟩

theorem fits_stepsToLines (base : Base) (lines : List (List (Segment Int))) :
    ∀ line ∈ stepsToLines base lines, ∀ segment ∈ line, Fits segment := by
  induction lines generalizing base with
  | nil => simp [stepsToLines]
  | cons steps lines ih => exact List.forall_mem_cons.mpr ⟨fits_segmentsOf _ steps, ih _⟩

/-- **Every field of what is read fits into 32 bits.** -/
theorem fits_of_decode {text : List Char} {lines : List (List (Segment Nat))}
    (h : decode text = .ok lines) : ∀ line ∈ lines, ∀ segment ∈ line, Fits segment := by
  rw [decode_eq_map] at h
  cases hm : (Text.splitOn ';' text).mapM lineOf with
  | error fault =>
    rw [hm] at h
    cases h
  | ok steps =>
    rw [hm] at h
    cases h
    exact fits_stepsToLines .zero steps

end Mappings

namespace SourceMap

/-! ## Lines with one more segment -/

theorem mem_insertSegment {segment other : Segment Nat} {segments : List (Segment Nat)}
    (h : other ∈ insertSegment segment segments) : other = segment ∨ other ∈ segments :=
  List.eq_or_mem_of_mem_insertIdx h

theorem mem_insertAt {segment other : Segment Nat} {n : Nat} {lines : List (List (Segment Nat))}
    {line : List (Segment Nat)} (hl : line ∈ insertAt segment n lines) (ho : other ∈ line) :
    other = segment ∨ ∃ line' ∈ lines, other ∈ line' := by
  induction n generalizing lines with
  | zero =>
    cases lines with
    | nil =>
      rw [List.mem_singleton.mp hl] at ho
      exact (mem_insertSegment ho).imp_right fun h => by cases h
    | cons first lines =>
      rcases List.mem_cons.mp hl with rfl | hl
      · exact (mem_insertSegment ho).imp_right fun h => ⟨first, List.mem_cons_self, h⟩
      · exact .inr ⟨line, List.mem_cons_of_mem _ hl, ho⟩
  | succ n ih =>
    cases lines with
    | nil =>
      rcases List.mem_cons.mp hl with rfl | hl
      · cases ho
      · exact ih hl
    | cons first lines =>
      rcases List.mem_cons.mp hl with rfl | hl
      · exact .inr ⟨line, List.mem_cons_self, ho⟩
      · exact (ih hl).imp_right fun ⟨line', hm, h⟩ => ⟨line', List.mem_cons_of_mem _ hm, h⟩

/-! ## The maps that steps lead to -/

/-- The maps that are made step by step. Columns, lines and numbers of sources and names have 32 bits;
they need not be in any order, and need not be those of sources and names that the map has. -/
inductive Reachable : SourceMap → Prop
  | empty (file : Option String) : Reachable (.empty file)
  | addSource {map : SourceMap} (h : Reachable map) (name : String) (content : Option String) :
    Reachable (map.addSource name content)
  | addName {map : SourceMap} (h : Reachable map) (name : String) : Reachable (map.addName name)
  | addSegment {map : SourceMap} (h : Reachable map) (line : Nat) {segment : Segment Nat}
    (hs : Mappings.Fits segment) : Reachable (map.addSegment line segment)
  | parse {text : String} {map : SourceMap} (h : parse text = .ok map) : Reachable map

variable {map : SourceMap}

/-- A string that the format wants is a member. -/
theorem get?_of_required {json : Json} {field found : String}
    (h : required json field Json.string? = .ok found) : json.get? field = some (.string found) := by
  unfold required at h
  split at h
  · rename_i hbind
    cases h
    obtain ⟨value, hget, hvalue⟩ := Option.bind_eq_some_iff.mp hbind
    cases value with
    | string text =>
      cases hvalue
      exact hget
    | _ => cases hvalue
  · cases h

/-- The lines of a map that is read are those of the mappings of its text. -/
theorem exists_decode_of_parse {text : String} (h : parse text = .ok map) :
    ∃ json mappings, Json.parse? text = some json ∧
      json.get? "mappings" = some (.string mappings) ∧
      Mappings.decode mappings.toList = .ok map.lines := by
  unfold parse at h
  split at h
  · rename_i json hjson
    obtain ⟨found, -, h⟩ := exists_of_bind h
    split at h
    · cases h
    · obtain ⟨-, -, h⟩ := exists_of_bind h
      obtain ⟨-, -, h⟩ := exists_of_bind h
      obtain ⟨mappings, hmappings, h⟩ := exists_of_bind h
      obtain ⟨lines, hdecode, h⟩ := exists_of_bind h
      cases h
      exact ⟨json, mappings, hjson, get?_of_required hmappings, hdecode⟩
  · cases h

/-- **Every field of a map that is made step by step fits into 32 bits.** -/
theorem Reachable.fits (h : Reachable map) :
    ∀ line ∈ map.lines, ∀ segment ∈ line, Mappings.Fits segment := by
  induction h with
  | empty => simp [SourceMap.empty]
  | addSource _ _ _ ih => exact ih
  | addName _ _ ih => exact ih
  | addSegment _ line hs ih =>
    intro found hl segment hm
    rcases mem_insertAt hl hm with rfl | ⟨line', hl', hm'⟩
    · exact hs
    · exact ih line' hl' segment hm'
  | parse h =>
    obtain ⟨-, mappings, -, -, hdecode⟩ := exists_decode_of_parse h
    exact Mappings.fits_of_decode hdecode

/-- The map with an empty line if it has no line at all. -/
def withLine (map : SourceMap) : SourceMap :=
  { map with lines := if map.lines = [] then [[]] else map.lines }

/-- Without lines a map is written as if it had an empty one. -/
theorem text_withLine (map : SourceMap) : map.withLine.text = map.text := by
  have hmappings : map.withLine.mappings = map.mappings := by
    by_cases h : map.lines = []
    · simp only [mappings, withLine, h]
      rfl
    · simp only [withLine, h, if_false]
  simp only [text, toJson, hmappings]
  rfl

/-- **Every map that is made step by step survives being written and read.** It comes back with the same
file, sources, texts, names and lines; only a map with no line at all gets an empty one. So a map with a
segment comes back as it is. -/
theorem parse_text_of_reachable (h : Reachable map) :
    parse map.text = .ok { map with lines := if map.lines = [] then [[]] else map.lines } ∧
      ((∃ line ∈ map.lines, line ≠ []) → parse map.text = .ok map) := by
  have hparse : parse map.text = .ok map.withLine := by
    rw [← text_withLine]
    have hlines : map.withLine.lines = if map.lines = [] then [[]] else map.lines := rfl
    refine parse_text ?_ ?_
    · rw [hlines]
      split
      · exact List.cons_ne_nil _ _
      · assumption
    · rw [hlines]
      split
      · simp
      · exact h.fits
  refine ⟨hparse, ?_⟩
  rintro ⟨line, hm, -⟩
  rw [hparse, withLine, if_neg (List.ne_nil_of_mem hm)]

/-- A map with segments that were added from right to left, and refer to no name that it has. -/
def backwards : SourceMap :=
  (((SourceMap.empty none).addSource "a" none).addSegment 1 ⟨7, none⟩).addSegment 1
    ⟨3, some ⟨0, 4294967295, 2, some 9⟩⟩

theorem parse_text_backwards : backwards.Reachable ∧ parse backwards.text = .ok backwards := by
  have hreachable : backwards.Reachable :=
    .addSegment (.addSegment (.addSource (.empty none) "a" none) 1
      ⟨by decide, fun origin ho => by cases ho⟩) 1
      ⟨by decide, fun origin ho => by
        cases ho
        exact ⟨by decide, by decide, by decide, fun name hn => by
          cases hn
          decide⟩⟩
  refine ⟨hreachable, (parse_text_of_reachable hreachable).2 ?_⟩
  exact ⟨[⟨3, some ⟨0, 4294967295, 2, some 9⟩⟩, ⟨7, none⟩], by decide +kernel, List.cons_ne_nil _ _⟩

end SourceMap

end DeferredLog
