import DeferredLog.Proofs.Patch
import DeferredLog.Proofs.Text.Position
import DeferredLog.Proofs.Text.Split

/-!
# The lines of a text

A position can be looked up in a table of the offsets at which lines start. The line of an offset is the
last one that starts no later, found by halving, and its column is counted from there. The other way
round the line is looked up and its columns are counted until the one that is asked for. Both agree with
the walk over the whole text, and each of them is the other's way back.

* `Text.line_induction`: texts line by line.
* `LineTable.position_eq`: the position of an offset by the table.
* `LineTable.offset?_eq`: the offset of a position by the table.
* `Position.offset?_eq_none_iff`: the positions that lead nowhere.
* `Position.offset?_iff_ofOffset`: positions and the boundaries between characters belong together one to
  one, in the same order.
-/

namespace DeferredLog

open Patch (Boundary)

namespace Text

/-! ## Texts line by line -/

/-- A text is a line, or a line and a text behind its line feed. -/
theorem line_induction {P : List Char → Prop} (last : ∀ line, '\n' ∉ line → P line)
    (more : ∀ line rest, '\n' ∉ line → P rest → P (line ++ '\n' :: rest)) (text : List Char) :
    P text := by
  -- On the text behind a line that has been read in part.
  suffices h : ∀ line, '\n' ∉ line → P (line ++ text) from h [] List.not_mem_nil
  induction text with
  | nil =>
    intro line hline
    rw [List.append_nil]
    exact last line hline
  | cons c cs ih =>
    intro line hline
    by_cases hc : c = '\n'
    · subst hc
      exact more line cs hline (ih [] List.not_mem_nil)
    · have := ih (line ++ [c]) (by simp [hline, Ne.symm hc])
      rwa [List.append_assoc] at this

/-- The offsets behind the line feeds of a text that starts at an offset. -/
def lineStarts (offset : Nat) : List Char → List Nat
  | [] => []
  | c :: cs =>
    if c = '\n' then (offset + 1) :: lineStarts (offset + 1) cs
    else lineStarts (offset + c.utf8Size) cs

theorem lineStarts_of_notMem {line : List Char} (h : '\n' ∉ line) (offset : Nat) :
    lineStarts offset line = [] := by
  induction line generalizing offset with
  | nil => rfl
  | cons c cs ih =>
    rw [List.mem_cons, not_or] at h
    rw [lineStarts, if_neg (Ne.symm h.1), ih h.2]

theorem lineStarts_append {line : List Char} (h : '\n' ∉ line) (rest : List Char) (offset : Nat) :
    lineStarts offset (line ++ '\n' :: rest) =
      (offset + size line + 1) :: lineStarts (offset + size line + 1) rest := by
  induction line generalizing offset with
  | nil => rfl
  | cons c cs ih =>
    rw [List.mem_cons, not_or] at h
    rw [List.cons_append, lineStarts, if_neg (Ne.symm h.1), ih h.2, size_cons, ← Nat.add_assoc]

theorem lt_of_mem_lineStarts {offset start : Nat} {text : List Char}
    (h : start ∈ lineStarts offset text) : offset < start := by
  induction text generalizing offset with
  | nil => cases h
  | cons c cs ih =>
    rw [lineStarts] at h
    split at h
    · rcases List.mem_cons.mp h with rfl | h
      · exact Nat.lt_succ_self _
      · exact Nat.lt_of_succ_lt (ih h)
    · exact Nat.lt_of_le_of_lt (Nat.le_add_right ..) (ih h)

/-- The text behind a front part, up to an offset. -/
theorem slice_front (front text : List Char) (n : Nat) :
    slice (size front) (size front + n) (front ++ text) = ((splitAt? n text).map (·.1)).getD [] := by
  have hfront : splitAt? (size front) (front ++ text) = some (front, text) :=
    splitAt?_eq_some_iff.mpr ⟨rfl, rfl⟩
  rw [slice, if_pos (Nat.le_add_right ..), hfront, Nat.add_sub_cancel_left]

/-- Each line has a start. -/
theorem length_lineStarts (offset : Nat) (text : List Char) :
    (offset :: lineStarts offset text).length = (splitOn '\n' text).length := by
  induction text using line_induction generalizing offset with
  | last line hline => rw [lineStarts_of_notMem hline, splitOn_of_notMem hline]; rfl
  | more line rest hline ih =>
    rw [lineStarts_append hline, splitOn_append_cons, splitOn_of_notMem hline, List.length_cons, ih]
    rfl

/-! ## Columns of a line -/

/-- The offset of a column in a line that starts at an offset. The count of the columns before it starts
at `passed`. -/
def columnOffset? (column passed offset : Nat) : List Char → Option Nat
  | [] => if passed = column then some offset else none
  | c :: cs =>
    if passed = column then some offset
    else columnOffset? column (passed + charUnits c) (offset + c.utf8Size) cs

/-- A column of a line lies between the two code units of a character. -/
def InsidePair (line : List Char) (column : Nat) : Prop :=
  ∃ a c b, line = a ++ c :: b ∧ charUnits c = 2 ∧ column = units a + 1

theorem charUnits_eq (c : Char) : charUnits c = 1 ∨ charUnits c = 2 := by
  rw [charUnits]
  split
  · exact .inl rfl
  · exact .inr rfl

/-- **The columns that a line does not have** lie before the count, behind the line or inside a pair. -/
theorem columnOffset?_eq_none_iff {column passed offset : Nat} {line : List Char} :
    columnOffset? column passed offset line = none ↔ column < passed ∨
      passed + units line < column ∨ ∃ inner, column = passed + inner ∧ InsidePair line inner := by
  induction line generalizing passed offset with
  | nil =>
    rw [columnOffset?]
    constructor
    · intro h
      split at h
      · cases h
      · rw [units]
        omega
    · rintro (h | h | ⟨_, -, a, c, b, hline, -, -⟩)
      · exact if_neg (by omega)
      · rw [units] at h
        exact if_neg (by omega)
      · simp at hline
  | cons c cs ih =>
    have hpos := charUnits_pos c
    rw [columnOffset?, units]
    constructor
    · intro h
      split at h
      · cases h
      · rename_i hne
        rcases ih.mp h with hlt | hlt | ⟨inner, rfl, a, d, b, rfl, hd, rfl⟩
        · rcases charUnits_eq c with hc | hc
          · exact .inl (by omega)
          · rcases Nat.lt_or_gt_of_ne hne with hgt | hgt
            · exact .inr (.inr ⟨1, by omega, [], c, cs, rfl, hc, rfl⟩)
            · exact .inl hgt
        · exact .inr (.inl (by omega))
        · exact .inr (.inr ⟨charUnits c + (units a + 1), by omega, c :: a, d, b, rfl, hd,
            by rw [units]; omega⟩)
    · intro h
      have hne : passed ≠ column := by
        rcases h with h | h | ⟨inner, rfl, a, d, b, -, -, rfl⟩ <;> omega
      rw [if_neg hne]
      refine ih.mpr ?_
      rcases h with h | h | ⟨inner, rfl, a, d, b, hline, hd, rfl⟩
      · exact .inl (by omega)
      · exact .inr (.inl (by omega))
      · cases a with
        | nil =>
          obtain ⟨rfl, rfl⟩ := List.cons.inj hline
          exact .inl (by rw [units]; omega)
        | cons e a =>
          obtain ⟨rfl, rfl⟩ := List.cons.inj hline
          exact .inr (.inr ⟨units a + 1, by rw [units]; omega, a, d, b, rfl, hd, rfl⟩)

end Text

namespace Position

open Text (lineStarts columnOffset? units size slice splitAt? splitOn)

/-! ## A walk by lines -/

theorem after_of_notMem {line : List Char} (h : '\n' ∉ line) (position : Position) :
    position.after line = ⟨position.line, position.column + units line⟩ := by
  induction line generalizing position with
  | nil => rfl
  | cons c cs ih =>
    rw [List.mem_cons, not_or] at h
    rw [after_cons, ih h.2, next, if_neg (Ne.symm h.1), units, Nat.add_assoc]

/-- Behind a part of the text the walk goes on. -/
theorem walk_add (position : Position) (a b : List Char) (n : Nat) :
    walk position (size a + n) (a ++ b) = walk (position.after a) n b := by
  induction a generalizing position with
  | nil => simp
  | cons c a ih =>
    have hc := c.utf8Size_pos
    obtain ⟨m, hm⟩ : ∃ m, size (c :: a) + n = m + 1 := ⟨size (c :: a) + n - 1, by simp; omega⟩
    rw [hm, List.cons_append, walk, after_cons]
    rw [Text.size_cons] at hm
    rw [if_pos (by omega), show m + 1 - c.utf8Size = size a + n by omega, ih]

/-- Within a line the walk counts columns; a place inside a character has column zero. -/
theorem walk_of_le {line : List Char} (h : '\n' ∉ line) (position : Position) {n : Nat}
    (hn : n ≤ size line) (rest : List Char) : walk position n (line ++ rest) = ⟨position.line,
      ((splitAt? n (line ++ rest)).map fun parts => position.column + units parts.1).getD 0⟩ := by
  induction line generalizing position n with
  | nil =>
    obtain rfl := Nat.le_zero.mp hn
    simp [walk, splitAt?, units]
  | cons c cs ih =>
    rw [List.mem_cons, not_or] at h
    rw [Text.size_cons] at hn
    cases n with
    | zero => simp [walk, splitAt?, units]
    | succ n =>
      rw [List.cons_append, walk, splitAt?]
      split
      · rw [ih h.2 _ (by omega), next, if_neg (Ne.symm h.1)]
        cases splitAt? (n + 1 - c.utf8Size) (cs ++ rest) with
        | none => rfl
        | some parts => simp [units, Nat.add_assoc]
      · rfl

/-- Past the end the walk stands at the end. -/
theorem ofOffset_min (source : List Char) (offset : Nat) :
    ofOffset source (min offset (size source)) = ofOffset source offset := by
  by_cases h : offset ≤ size source
  · rw [Nat.min_eq_left h]
  · obtain ⟨n, rfl⟩ : ∃ n, offset = size source + n := ⟨offset - size source, by omega⟩
    have hend := walk_add zero source [] n
    have hsize := walk_size zero source []
    rw [List.append_nil] at hend hsize
    rw [Nat.min_eq_right (Nat.le_add_right ..), ofOffset, ofOffset, hend, hsize]
    cases n <;> rfl

/-- A position that was passed is not found. -/
theorem search?_of_precedes {position target : Position} (h : target.Precedes position)
    (offset : Nat) (text : List Char) : search? position target offset text = none := by
  rw [Option.eq_none_iff_forall_ne_some]
  rintro found hfound
  obtain ⟨a, -, -, hreached, -⟩ := search?_eq_some_iff.mp hfound
  exact (h.after a).ne hreached.symm

/-- In its own line a position is found by its column. -/
theorem search?_line {line : List Char} (h : '\n' ∉ line) (number column passed offset : Nat)
    (rest : List Char) (hrest : rest.head?.all (· = '\n')) :
    search? ⟨number, passed⟩ ⟨number, column⟩ offset (line ++ rest) =
      columnOffset? column passed offset line := by
  induction line generalizing passed offset with
  | nil =>
    rw [columnOffset?]
    cases rest with
    | nil => simp [search?]
    | cons c cs =>
      obtain rfl : c = '\n' := by simpa using hrest
      have hbehind : (⟨number, column⟩ : Position).Precedes ⟨number + 1, 0⟩ :=
        .inl (Nat.lt_succ_self _)
      rw [List.nil_append, search?, next, if_pos rfl, search?_of_precedes hbehind]
      simp
  | cons c cs ih =>
    rw [List.mem_cons, not_or] at h
    rw [List.cons_append, search?, columnOffset?, next, if_neg (Ne.symm h.1), ih h.2]
    simp

/-- A position of a later line is looked for there. -/
theorem search?_behind {line : List Char} (h : '\n' ∉ line) {position target : Position}
    (hlt : position.line < target.line) (offset : Nat) (rest : List Char) :
    search? position target offset (line ++ '\n' :: rest) =
      search? ⟨position.line + 1, 0⟩ target (offset + size line + 1) rest := by
  have hne : position ≠ target := by
    rintro rfl
    omega
  induction line generalizing position offset with
  | nil =>
    rw [List.nil_append, search?, if_neg hne]
    rfl
  | cons c cs ih =>
    rw [List.mem_cons, not_or] at h
    have hline : (position.next c).line = position.line := by
      rw [next, if_neg (Ne.symm h.1)]
    rw [List.cons_append, search?, if_neg hne, ih h.2 (by omega), hline, Text.size_cons,
      ← Nat.add_assoc]
    rintro rfl
    omega

/-- **A position is looked for in its line**, from where the line starts. -/
theorem search?_eq (number line column offset : Nat) (text : List Char) :
    search? ⟨number, 0⟩ ⟨number + line, column⟩ offset text =
      ((offset :: lineStarts offset text)[line]?).bind fun start =>
        ((splitOn '\n' text)[line]?).bind fun chars => columnOffset? column 0 start chars := by
  induction text using Text.line_induction generalizing number line offset with
  | last chars hchars =>
    rw [Text.lineStarts_of_notMem hchars, Text.splitOn_of_notMem hchars]
    cases line with
    | zero => simpa using search?_line hchars number column 0 offset [] rfl
    | succ line =>
      -- The walk ends in the line it starts in.
      refine Option.eq_none_iff_forall_ne_some.mpr fun found hfound => ?_
      obtain ⟨a, b, rfl, hreached, -⟩ := search?_eq_some_iff.mp hfound
      rw [after_of_notMem fun hm => hchars (List.mem_append_left b hm)] at hreached
      have := congrArg Position.line hreached
      simp at this
  | more chars rest hchars ih =>
    rw [Text.lineStarts_append hchars, Text.splitOn_append_cons, Text.splitOn_of_notMem hchars]
    cases line with
    | zero => simpa using search?_line hchars number column 0 offset ('\n' :: rest) rfl
    | succ line =>
      rw [search?_behind hchars (by simp), show number + (line + 1) = number + 1 + line by omega, ih]
      rfl

/-- In the line where the walk starts, its column counts from there. -/
theorem walk_line {chars : List Char} (h : '\n' ∉ chars) (number : Nat) (front rest : List Char)
    {n : Nat} (hn : n ≤ size chars) : walk ⟨number, 0⟩ n (chars ++ rest) =
      ⟨number, units (slice (size front) (size front + n) (front ++ (chars ++ rest)))⟩ := by
  rw [walk_of_le h _ hn, Text.slice_front]
  cases splitAt? n (chars ++ rest) <;> simp [units]

/-- **The position of an offset** is in the last line that starts no later, and its column counts from
there. -/
theorem exists_walk_eq (number : Nat) (front text : List Char) {n : Nat} (hn : n ≤ size text) :
    ∃ line start, (size front :: lineStarts (size front) text)[line]? = some start ∧
      (∀ i, (size front :: lineStarts (size front) text)[i]?.any (· ≤ size front + n) = true ↔
        i < line + 1) ∧
      walk ⟨number, 0⟩ n text =
        ⟨number + line, units (slice start (size front + n) (front ++ text))⟩ := by
  induction text using Text.line_induction generalizing number front n with
  | last chars hchars =>
    rw [Text.lineStarts_of_notMem hchars]
    refine ⟨0, size front, rfl, fun i => ?_, ?_⟩
    · cases i <;> simp
    · simpa using walk_line hchars number front [] hn
  | more chars rest hchars ih =>
    rw [Text.lineStarts_append hchars]
    by_cases hle : n ≤ size chars
    · refine ⟨0, size front, rfl, fun i => ?_, walk_line hchars number front _ hle⟩
      cases i with
      | zero => simp
      | succ i =>
        -- Every other line starts behind the line feed.
        have hlater : ∀ start ∈ (size front + size chars + 1) ::
            lineStarts (size front + size chars + 1) rest, size front + n < start := by
          intro start hm
          rcases List.mem_cons.mp hm with rfl | hm
          · omega
          · have := Text.lt_of_mem_lineStarts hm
            omega
        rw [List.getElem?_cons_succ]
        simp only [Nat.add_lt_add_iff_right, Nat.not_lt_zero, iff_false, Bool.not_eq_true,
          Option.any_eq_false]
        intro start hm
        have := hlater start (List.mem_of_getElem? hm)
        simpa using this
    · have hfeed : size [('\n' : Char)] = 1 := rfl
      have hsplit : chars ++ '\n' :: rest = (chars ++ ['\n']) ++ rest := by simp
      have hsize : size (chars ++ ['\n']) = size chars + 1 := by rw [Text.size_append, hfeed]
      rw [hsplit, Text.size_append, hsize] at hn
      obtain ⟨m, rfl⟩ : ∃ m, n = size chars + 1 + m := ⟨n - (size chars + 1), by omega⟩
      have hfront : size (front ++ (chars ++ ['\n'])) = size front + size chars + 1 := by
        rw [Text.size_append, hsize, Nat.add_assoc]
      have hoffset : size front + (size chars + 1 + m) = size front + size chars + 1 + m := by omega
      have hwalk : walk ⟨number, 0⟩ (size chars + 1 + m) (chars ++ '\n' :: rest) =
          walk ⟨number + 1, 0⟩ m rest := by
        rw [hsplit, ← hsize, walk_add, after_append, after_of_notMem hchars]
        rfl
      obtain ⟨line, start, hstart, hall, hreached⟩ :=
        ih (number + 1) (front ++ (chars ++ ['\n'])) (n := m) (by omega)
      rw [hfront] at hstart hall hreached
      refine ⟨line + 1, start, hstart, fun i => ?_, ?_⟩
      · cases i with
        | zero => simp
        | succ i => rw [List.getElem?_cons_succ, Nat.add_lt_add_iff_right, hoffset, hall i]
      · rw [hwalk, hreached, hoffset, hsplit, List.append_assoc front,
          show number + 1 + line = number + (line + 1) by omega]

end Position

/-! ## A table of lines -/

/-- A text and the offsets at which its lines start. -/
structure LineTable where
  /-- The text. -/
  source : List Char
  /-- The start of each line. -/
  starts : List Nat

namespace LineTable

open Text (lineStarts columnOffset? units size slice splitOn)

/-- The table of a text. -/
def of (source : List Char) : LineTable :=
  ⟨source, 0 :: lineStarts 0 source⟩

/-- The last line that starts no later than an offset, looked for by halving. -/
def lineAt (table : LineTable) (offset : Nat) : Nat :=
  Search.boundary (fun i => table.starts[i]?.any (· ≤ offset)) table.starts.length - 1

/-- The position of an offset, by the table. -/
def position (table : LineTable) (offset : Nat) : Position :=
  let offset := min offset (size table.source)
  let line := table.lineAt offset
  ⟨line, units (slice (table.starts[line]?.getD 0) offset table.source)⟩

/-- The end of a line, by the table: its line feed, or the end of the text. -/
def stop (table : LineTable) (line : Nat) : Nat :=
  (table.starts[line + 1]?.map (· - 1)).getD (size table.source)

/-- The offset of a position, by the table. Of the line only the characters in front are looked at. -/
def offset? (table : LineTable) (position : Position) : Option Nat :=
  table.starts[position.line]?.bind fun start =>
    columnOffset? position.column 0 start (slice start (table.stop position.line) table.source)

/-- **The table tells the position of each offset.** -/
theorem position_eq (source : List Char) (offset : Nat) :
    (of source).position offset = Position.ofOffset source offset := by
  obtain ⟨line, start, hstart, hall, hreached⟩ :=
    Position.exists_walk_eq 0 [] source (Nat.min_le_right offset (size source))
  simp only [Text.size_nil, Nat.zero_add, List.nil_append] at hstart hall hreached
  have hlt : line < (0 :: lineStarts 0 source).length :=
    (List.getElem?_eq_some_iff.mp hstart).1
  have hline : (of source).lineAt (min offset (size source)) = line :=
    congrArg (· - 1) (Search.boundary_eq hall hlt)
  rw [← Position.ofOffset_min, Position.ofOffset, Position.zero, hreached]
  simp only [position, show (of source).source = source from rfl, hline,
    show (of source).starts = 0 :: lineStarts 0 source from rfl, hstart, Option.getD_some]

/-- What stands between the start and the end of a line. -/
theorem slice_line (front : List Char) {text chars : List Char} {line start : Nat}
    (hs : (size front :: lineStarts (size front) text)[line]? = some start)
    (hc : (splitOn '\n' text)[line]? = some chars) :
    slice start (((size front :: lineStarts (size front) text)[line + 1]?.map (· - 1)).getD
      (size (front ++ text))) (front ++ text) = chars := by
  induction text using Text.line_induction generalizing front line with
  | last text htext =>
    rw [Text.lineStarts_of_notMem htext] at hs ⊢
    rw [Text.splitOn_of_notMem htext] at hc
    cases line with
    | zero =>
      cases hs
      obtain rfl : text = chars := Option.some.inj hc
      simpa using Text.slice_append front text []
    | succ line => cases hs
  | more first rest hfirst ih =>
    rw [Text.lineStarts_append hfirst] at hs ⊢
    rw [Text.splitOn_append_cons, Text.splitOn_of_notMem hfirst] at hc
    cases line with
    | zero =>
      cases hs
      obtain rfl : first = chars := Option.some.inj hc
      exact Text.slice_append front first ('\n' :: rest)
    | succ line =>
      have hfront : size (front ++ (first ++ ['\n'])) = size front + size first + 1 := by
        rw [Text.size_append, Text.size_append, ← Nat.add_assoc]
        rfl
      have := ih (front ++ (first ++ ['\n'])) (by rwa [hfront]) hc
      rw [hfront] at this
      simpa using this

/-- **The table tells the offset of each position.** -/
theorem offset?_eq (source : List Char) (position : Position) :
    (of source).offset? position = Position.offset? source position := by
  obtain ⟨line, column⟩ := position
  have hsearch := Position.search?_eq 0 line column 0 source
  rw [Nat.zero_add] at hsearch
  rw [offset?, Position.offset?, Position.zero, hsearch, of]
  refine Option.bind_congr fun start hs => ?_
  have hlt := (List.getElem?_eq_some_iff.mp hs).1
  rw [Text.length_lineStarts] at hlt
  have hc := List.getElem?_eq_getElem hlt
  have hslice : slice start (stop ⟨source, 0 :: lineStarts 0 source⟩ line) source = _ :=
    slice_line [] hs hc
  rw [hc, Option.bind_some, hslice]

end LineTable

/-! ## Positions and boundaries -/

namespace Position

open Text (InsidePair splitOn units)

variable {source : List Char} {position : Position}

theorem offset?_eq_some_iff_boundary {offset : Nat} :
    offset? source position = some offset ↔
      Boundary source offset ∧ ofOffset source offset = position := by
  rw [offset?_eq_some_iff]
  constructor
  · rintro ⟨a, b, rfl, hreached, rfl⟩
    exact ⟨⟨a, b, rfl, rfl⟩, by rw [ofOffset_size, hreached]⟩
  · rintro ⟨⟨a, b, rfl, rfl⟩, hreached⟩
    exact ⟨a, b, rfl, by rw [← ofOffset_size a b, hreached], rfl⟩

/-- The lines of a text are as many as are counted. -/
theorem length_splitOn (source : List Char) : (splitOn '\n' source).length = lineCount source := by
  rw [lineCount]
  induction source using Text.line_induction with
  | last line hline => rw [Text.splitOn_of_notMem hline, List.count_eq_zero_of_not_mem hline]; rfl
  | more line rest hline ih =>
    rw [Text.splitOn_append_cons, Text.splitOn_of_notMem hline, List.length_append, ih,
      List.count_append, List.count_eq_zero_of_not_mem hline, List.count_cons_self]
    simp [Nat.add_comm]

/-- **The positions that lead nowhere** are those of a line behind the last, of a column behind the line
or inside a pair. -/
theorem offset?_eq_none_iff : offset? source position = none ↔ lineCount source ≤ position.line ∨
    ∃ line, (splitOn '\n' source)[position.line]? = some line ∧
      (units line < position.column ∨ InsidePair line position.column) := by
  obtain ⟨number, column⟩ := position
  have hsearch := search?_eq 0 number column 0 source
  rw [Nat.zero_add] at hsearch
  rw [offset?, zero, hsearch, ← length_splitOn, ← Text.length_lineStarts 0]
  by_cases hlt : number < (0 :: Text.lineStarts 0 source).length
  · have hlt' : number < (splitOn '\n' source).length := by rwa [← Text.length_lineStarts 0]
    rw [List.getElem?_eq_getElem hlt, List.getElem?_eq_getElem hlt', Option.bind_some,
      Option.bind_some, Text.columnOffset?_eq_none_iff, or_iff_right (Nat.not_le.mpr hlt)]
    simp
  · rw [List.getElem?_eq_none (Nat.le_of_not_lt hlt)]
    simp only [Option.bind_none, true_iff]
    exact .inl (Nat.le_of_not_lt hlt)

/-- A boundary behind another one has a later position. -/
theorem precedes_ofOffset {a b : Nat} (ha : Boundary source a) (hb : Boundary source b)
    (h : a < b) : (ofOffset source a).Precedes (ofOffset source b) := by
  obtain ⟨front, rest, rfl, rfl⟩ := ha
  obtain ⟨middle, rest, rfl, rfl⟩ := hb.behind (Nat.le_of_lt h)
  cases middle with
  | nil => exact absurd h (Nat.lt_irrefl _)
  | cons c middle =>
    rw [ofOffset_size, ← Text.size_append, ← List.append_assoc, ofOffset_size, after_append,
      after_cons]
    exact (precedes_next _ c).after middle

/-- **Positions and boundaries belong together one to one.** Every boundary between characters, the end
of the text included, is led back to by its position. A position leads to an offset exactly if that is a
boundary with this position. It leads nowhere exactly if no boundary has it: its line is behind the last
one, or its column is behind the line or inside a pair of code units. A later boundary has a later
position. A table of line starts gives the same positions and offsets. -/
theorem offset?_iff_ofOffset (source : List Char) :
    (∀ offset, Boundary source offset → offset? source (ofOffset source offset) = some offset) ∧
    (∀ position offset, offset? source position = some offset ↔
      Boundary source offset ∧ ofOffset source offset = position) ∧
    (∀ position, (offset? source position = none ↔
        ∀ offset, Boundary source offset → ofOffset source offset ≠ position) ∧
      (offset? source position = none ↔ lineCount source ≤ position.line ∨
        ∃ line, (splitOn '\n' source)[position.line]? = some line ∧
          (units line < position.column ∨ InsidePair line position.column))) ∧
    (∀ a b, Boundary source a → Boundary source b →
      (a < b ↔ (ofOffset source a).Precedes (ofOffset source b))) ∧
    (∀ offset, (LineTable.of source).position offset = ofOffset source offset) ∧
    (∀ position, (LineTable.of source).offset? position = offset? source position) := by
  refine ⟨fun offset h => offset?_eq_some_iff_boundary.mpr ⟨h, rfl⟩,
    fun position offset => offset?_eq_some_iff_boundary, fun position => ⟨?_, offset?_eq_none_iff⟩,
    fun a b ha hb => ⟨precedes_ofOffset ha hb, fun h => ?_⟩, LineTable.position_eq source,
    LineTable.offset?_eq source⟩
  · simp only [Option.eq_none_iff_forall_ne_some, ne_eq, offset?_eq_some_iff_boundary, not_and]
  · -- Of two boundaries in the other order the positions would be too.
    rcases Nat.lt_trichotomy a b with hlt | rfl | hgt
    · exact hlt
    · exact absurd rfl h.ne
    · exact absurd rfl (h.trans (precedes_ofOffset hb ha hgt)).ne

/-- A text of four lines, of one, two and no characters and of one with a pair. -/
theorem offset?_iff_ofOffset_sample :
    Boundary "é\nab\n\n😀".toList 3 ∧ Boundary "é\nab\n\n😀".toList 11 ∧
      offset? "é\nab\n\n😀".toList (ofOffset "é\nab\n\n😀".toList 3) = some 3 ∧
      (ofOffset "é\nab\n\n😀".toList 3).Precedes (ofOffset "é\nab\n\n😀".toList 11) := by
  have hstart : Boundary "é\nab\n\n😀".toList 3 :=
    ⟨"é\n".toList, "ab\n\n😀".toList, by decide, by decide⟩
  have hend : Boundary "é\nab\n\n😀".toList 11 :=
    ⟨"é\nab\n\n😀".toList, [], by decide, by decide⟩
  obtain ⟨hback, -, -, horder, -⟩ := offset?_iff_ofOffset "é\nab\n\n😀".toList
  exact ⟨hstart, hend, hback 3 hstart, (horder 3 11 hstart hend).mp (by decide)⟩

end Position

end DeferredLog
