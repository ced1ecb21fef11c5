import DeferredLog.Json.Parser
import DeferredLog.Search
import DeferredLog.SourceMap.Mappings
import DeferredLog.Text.Position

/-!
# Source maps

A source map says of each part of a generated text where it comes from. For each generated line it
has a list of segments, and a segment reaches to the next one of its line.

* `SourceMap.addSegment` keeps a line in the order of columns, segments of one column in the order
  in which they were added.
* `SourceMap.origin?` is the place that a generated position comes from.
* `SourceMap.toJson` and `SourceMap.parse` are the third revision of the exchange format.
-/

namespace DeferredLog

/-- A source map. -/
structure SourceMap where
  /-- The name of the generated file. -/
  file : Option String
  /-- The names of the sources. -/
  sources : List String
  /-- Their texts, as far as they are known. -/
  contents : List (Option String)
  /-- The names that segments may refer to. -/
  names : List String
  /-- The segments of each generated line. -/
  lines : List (List (Segment Nat))
  deriving DecidableEq, Repr

namespace SourceMap

/-- The map of a generated file that says nothing yet. -/
def empty (file : Option String) : SourceMap :=
  ⟨file, [], [], [], []⟩

/-- The map with one more source. Its number is the number of sources before. -/
def addSource (map : SourceMap) (name : String) (content : Option String) : SourceMap :=
  { map with sources := map.sources ++ [name], contents := map.contents ++ [content] }

/-- The map with one more name. -/
def addName (map : SourceMap) (name : String) : SourceMap :=
  { map with names := map.names ++ [name] }

/-- The number of segments of a line up to a column, if the line is in order. -/
def reach (segments : List (Segment Nat)) (column : Nat) : Nat :=
  Search.boundary (fun i => segments[i]?.any (·.column ≤ column)) segments.length

/-- A line with one more segment, behind those of no greater column. -/
def insertSegment (segment : Segment Nat) (segments : List (Segment Nat)) : List (Segment Nat) :=
  segments.insertIdx (reach segments segment.column) segment

/-- Some lines with one more segment in the given one. Lines that are missing are added. -/
def insertAt (segment : Segment Nat) : Nat → List (List (Segment Nat)) → List (List (Segment Nat))
  | 0, [] => [insertSegment segment []]
  | 0, line :: lines => insertSegment segment line :: lines
  | n + 1, [] => [] :: insertAt segment n []
  | n + 1, line :: lines => line :: insertAt segment n lines

/-- The map with one more segment in a line. -/
def addSegment (map : SourceMap) (line : Nat) (segment : Segment Nat) : SourceMap :=
  { map with lines := insertAt segment line map.lines }

/-- The segment that covers a generated position. -/
def covering? (map : SourceMap) (position : Position) : Option (Segment Nat) := do
  let segments ← map.lines[position.line]?
  match reach segments position.column with
  | 0 => none
  | n + 1 => segments[n]?

/-- The place that a generated position comes from. -/
def origin? (map : SourceMap) (position : Position) : Option (Origin Nat) :=
  (map.covering? position).bind (·.origin)

/-! ## The exchange format -/

/-- The version of the format. -/
def version : Nat := 3

/-- The text of the segments of a map. -/
def mappings (map : SourceMap) : String :=
  String.ofList (Mappings.encode map.lines)

/-- A text as JSON, null where there is none. -/
def textOrNull (text : Option String) : Json :=
  (text.map Json.string).getD .null

/-- A map as JSON. -/
def toJson (map : SourceMap) : Json :=
  .ofMembers [
    ("version", .integer version),
    ("file", textOrNull map.file),
    ("sources", .array (map.sources.map .string)),
    ("sourcesContent", .array (map.contents.map textOrNull)),
    ("names", .array (map.names.map .string)),
    ("mappings", .string map.mappings)]

/-- The text of a map. -/
def text (map : SourceMap) : String :=
  map.toJson.text

/-- The items of an array in a member, each as the string it may be. Any other value of the member
counts as an empty array. -/
def stringsAt (json : Json) (field : String) : List (Option String) :=
  (((json.get? field).bind Json.array?).getD []).map Json.string?

/-- A member, as the kind of value that the format wants. -/
def required {α : Type} (json : Json) (field : String) (kind : Json → Option α) :
    Except MapFault α :=
  match (json.get? field).bind kind with
  | some found => .ok found
  | none => .error (.missingField field)

/-- The map that a JSON value holds. Of the strings that a value other than one stands for, a source
is empty, a content is unknown and a name is left out. -/
def ofJson (json : Json) : Except MapFault SourceMap := do
  let found ← required json "version" Json.natural?
  if found ≠ version then throw (.unsupportedVersion found)
  let _ ← required json "sources" Json.array?
  let mappings ← required json "mappings" Json.string?
  return {
    file := (json.get? "file").bind Json.string?
    sources := (stringsAt json "sources").map fun name => name.getD ""
    contents := stringsAt json "sourcesContent"
    names := (stringsAt json "names").filterMap id
    lines := ← Mappings.decode mappings.toList }

/-- The map that a text holds. -/
def parse (text : String) : Except MapFault SourceMap :=
  match Json.parse? text with
  | some json => ofJson json
  | none => .error .notJson

end SourceMap

end DeferredLog
