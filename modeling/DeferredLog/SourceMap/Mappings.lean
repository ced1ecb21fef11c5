import DeferredLog.SourceMap.Vlq
import DeferredLog.Text.Split

/-!
# Mappings

The segments of a source map as text. Lines end with semicolons and segments with commas. The fields
of a segment are differences: of the column to the one before it in the line, of the others to the
last ones given in any line.

* `Mappings.encode` writes the lines of a map, `Mappings.decode` reads them.
* `Mappings.Base` holds what differences are taken against. `Base.ahead` is a segment as differences
  and `Base.follow` the way back.
-/

namespace DeferredLog

/-- A place in one of the sources of a map. The fields are numbers, or differences of them. -/
structure Origin (α : Type) where
  /-- The number of the source. -/
  source : α
  /-- The line in the source. -/
  line : α
  /-- The column in the source. -/
  column : α
  /-- The number of a name. -/
  name : Option α
  deriving DecidableEq, Repr

/-- A column of a generated line, and where the text from there on comes from. -/
structure Segment (α : Type) where
  /-- The generated column. -/
  column : α
  /-- The place it comes from; none for text that comes from no source. -/
  origin : Option (Origin α)
  deriving DecidableEq, Repr

namespace Mappings

/-! ## Differences -/

/-- The last value of each field. -/
structure Base where
  /-- Of the generated column. -/
  column : Int
  /-- Of the number of the source. -/
  source : Int
  /-- Of the line in the source. -/
  sourceLine : Int
  /-- Of the column in the source. -/
  sourceColumn : Int
  /-- Of the number of the name. -/
  name : Int
  deriving DecidableEq, Repr

namespace Base

/-- What the first segment of a map is taken against. -/
def zero : Base := ⟨0, 0, 0, 0, 0⟩

/-- What the first segment of the next line is taken against. -/
def newLine (base : Base) : Base :=
  { base with column := 0 }

/-- The sum of a field and a difference. A sum has 64 bits: past the greatest one the least follows,
and the other way round. -/
def sum (field step : Int) : Int :=
  (field + step).bmod (Nat.pow 2 64)

/-- The base with the differences of a segment added. -/
def add (base : Base) (step : Segment Int) : Base :=
  let base := { base with column := sum base.column step.column }
  match step.origin with
  | none => base
  | some origin =>
    { base with
      source := sum base.source origin.source
      sourceLine := sum base.sourceLine origin.line
      sourceColumn := sum base.sourceColumn origin.column
      name := sum base.name (origin.name.getD 0) }

theorem sum_eq_add {field step : Int} (h : 2 * (field + step).natAbs < Vlq.codes) :
    sum field step = field + step := by
  have hcodes : Vlq.codes = 18446744073709551616 := rfl
  have hpow : (Nat.pow 2 64 : Int) = 18446744073709551616 := rfl
  rw [sum, Int.bmod_eq_of_le] <;> omega

/-- A segment as differences to a base. -/
def ahead (base : Base) (segment : Segment Nat) : Segment Int :=
  ⟨segment.column - base.column, segment.origin.map fun origin =>
    ⟨origin.source - base.source, origin.line - base.sourceLine,
      origin.column - base.sourceColumn, origin.name.map fun name => name - base.name⟩⟩

/-- The number of values of a field: it has 32 bits. -/
def words : Nat := Nat.pow 2 32

/-- A field with a value; one that does not fit becomes zero. -/
def word (value : Int) : Nat :=
  if 0 ≤ value ∧ value < words then value.toNat else 0

/-- The segment at a base, with the fields that some differences led to. -/
def segment (base : Base) (step : Segment Int) : Segment Nat :=
  ⟨word base.column, step.origin.map fun origin =>
    ⟨word base.source, word base.sourceLine, word base.sourceColumn,
      origin.name.map fun _ => word base.name⟩⟩

/-- The segment that differences to a base lead to. -/
def follow (base : Base) (step : Segment Int) : Segment Nat :=
  (base.add step).segment step

end Base

/-- The segments of a line as differences, and the base behind them. -/
def stepsOf (base : Base) : List (Segment Nat) → List (Segment Int) × Base
  | [] => ([], base)
  | segment :: segments =>
    let step := base.ahead segment
    let (steps, last) := stepsOf (base.add step) segments
    (step :: steps, last)

/-- The segments of some lines as differences. -/
def linesToSteps (base : Base) : List (List (Segment Nat)) → List (List (Segment Int))
  | [] => []
  | line :: lines =>
    let (steps, last) := stepsOf base.newLine line
    steps :: linesToSteps last lines

/-- The segments that the differences of a line lead to, and the base behind them. -/
def segmentsOf (base : Base) : List (Segment Int) → List (Segment Nat) × Base
  | [] => ([], base)
  | step :: steps =>
    let (segments, last) := segmentsOf (base.add step) steps
    (base.follow step :: segments, last)

/-- The segments that the differences of some lines lead to. -/
def stepsToLines (base : Base) : List (List (Segment Int)) → List (List (Segment Nat))
  | [] => []
  | steps :: rest =>
    let (line, last) := segmentsOf base.newLine steps
    line :: stepsToLines last rest

/-! ## Text -/

/-- The numbers that a segment is written as. -/
def fieldsOf (step : Segment Int) : List Int :=
  step.column ::
    match step.origin with
    | none => []
    | some origin => [origin.source, origin.line, origin.column] ++ origin.name.toList

/-- The segment that is written as some numbers. -/
def ofFields : List Int → Except MapFault (Segment Int)
  | [column] => .ok ⟨column, none⟩
  | [column, source, line, sourceColumn] => .ok ⟨column, some ⟨source, line, sourceColumn, none⟩⟩
  | [column, source, line, sourceColumn, name] =>
    .ok ⟨column, some ⟨source, line, sourceColumn, some name⟩⟩
  | fields => .error (.invalidSegment fields.length)

/-- The text of the differences of a segment. -/
def stepText (step : Segment Int) : List Char :=
  (fieldsOf step).flatMap Vlq.encode

/-- The text of the segments of a map. -/
def encode (lines : List (List (Segment Nat))) : List Char :=
  Text.joinWith ';' ((linesToSteps .zero lines).map fun steps =>
    Text.joinWith ',' (steps.map stepText))

/-- The numbers that a text consists of. -/
def numbers (text : List Char) : Except MapFault (List Int) :=
  if text.isEmpty then .ok []
  else
    match Vlq.read text, @Vlq.length_read text with
    | .error fault, _ => .error fault
    | .ok (number, rest), shorter =>
      have := shorter rfl
      (numbers rest).map (number :: ·)
termination_by text.length

/-- The differences of a segment, from their text. -/
def stepOf (text : List Char) : Except MapFault (Segment Int) := do
  ofFields (← numbers text)

/-- The differences of the segments of a line, from their text. Empty pieces count for nothing. -/
def lineOf (text : List Char) : Except MapFault (List (Segment Int)) :=
  ((Text.splitOn ',' text).filter fun piece => !piece.isEmpty).mapM stepOf

/-- The segments of a map, from their text. -/
def decode (text : List Char) : Except MapFault (List (List (Segment Nat))) := do
  return stepsToLines .zero (← (Text.splitOn ';' text).mapM lineOf)

theorem ofFields_fieldsOf (step : Segment Int) : ofFields (fieldsOf step) = .ok step := by
  obtain ⟨column, origin⟩ := step
  cases origin with
  | none => rfl
  | some origin =>
    obtain ⟨source, line, sourceColumn, name⟩ := origin
    cases name <;> rfl

example : (decode "AAAA;A,C".toList).toOption =
    some [[⟨0, some ⟨0, 0, 0, none⟩⟩], [⟨0, none⟩, ⟨1, none⟩]] := by decide +kernel

end Mappings

end DeferredLog
