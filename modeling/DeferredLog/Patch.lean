import DeferredLog.SourceMap

/-!
# Patches

A patch is a text and what is to be inserted into it, in the order of the offsets. Insertions at one
offset keep the order in which they were made.

* `Patch.insert` adds an insertion, at the end of the text if its offset lies past it.
* `Patch.render` is the text with the insertions made.
* `Patch.sourceMap` says of each part of that where it comes from. A segment starts at each of some
  given offsets, at each line, and behind each insertion.
-/

namespace DeferredLog

/-- A piece of text to be inserted. -/
structure Insertion where
  /-- The byte offset to insert it at. -/
  offset : Nat
  /-- The piece. -/
  text : List Char
  deriving DecidableEq, Repr

/-- A text with pieces to be inserted into it. -/
structure Patch where
  /-- The text. -/
  source : List Char
  /-- The pieces by offset. -/
  insertions : List Insertion
  deriving DecidableEq, Repr

namespace Patch

/-- The patch that changes nothing. -/
def of (source : List Char) : Patch :=
  ⟨source, []⟩

/-- Puts an insertion behind those of no greater offset. -/
def place (insertion : Insertion) : List Insertion → List Insertion
  | [] => [insertion]
  | first :: rest =>
    if first.offset ≤ insertion.offset then first :: place insertion rest
    else insertion :: first :: rest

/-- The patch with one more insertion. -/
def insert (patch : Patch) (offset : Nat) (text : List Char) : Patch :=
  { patch with
    insertions := place ⟨min offset (Text.size patch.source), text⟩ patch.insertions }

/-- Whether anything is inserted. -/
def changes (patch : Patch) : Bool :=
  patch.insertions.any fun insertion => !insertion.text.isEmpty

/-! ## The text -/

/-- The text from an offset on with some insertions made. -/
def renderFrom (source : List Char) (copied : Nat) : List Insertion → List Char
  | [] => Text.slice copied (Text.size source) source
  | insertion :: rest =>
    Text.slice copied insertion.offset source ++ insertion.text ++
      renderFrom source insertion.offset rest

/-- The text with the insertions made. -/
def render (patch : Patch) : List Char :=
  renderFrom patch.source 0 patch.insertions

/-! ## The map -/

/-- Where a walk over a text and its patched form stands. -/
structure Walk where
  /-- The byte offset in the text. -/
  offset : Nat
  /-- The position in the text. -/
  origin : Position
  /-- The position in the patched text. -/
  position : Position
  /-- Whether a segment has to start here, whatever comes. -/
  fresh : Bool
  /-- The insertions ahead. -/
  insertions : List Insertion
  /-- The offsets ahead at which segments start. -/
  boundaries : List Nat
  /-- The map of what was walked over. -/
  map : SourceMap

namespace Walk

/-- The walk with one insertion made. -/
def make (walk : Walk) (insertion : Insertion) : Walk :=
  { walk with
    position := walk.position.after insertion.text
    fresh := true
    insertions := walk.insertions.tail }

/-- The walk with the insertions at its offset made. -/
def makeAll (walk : Walk) : Walk :=
  (walk.insertions.takeWhile (·.offset = walk.offset)).foldl make walk

/-- The walk with a segment started. -/
def mark (walk : Walk) : Walk :=
  { walk with
    fresh := false
    map := walk.map.addSegment walk.position.line
      ⟨walk.position.column, some ⟨0, walk.origin.line, walk.origin.column, none⟩⟩ }

/-- The walk past a character that is in both texts. -/
def past (walk : Walk) (c : Char) : Walk :=
  { walk with
    offset := walk.offset + c.utf8Size
    origin := walk.origin.next c
    position := walk.position.next c }

/-- The boundaries that a walk has not passed. -/
def pending (walk : Walk) : List Nat :=
  walk.boundaries.dropWhile (· < walk.offset)

/-- Whether a segment starts where a walk stands. -/
def starts (walk : Walk) : Bool :=
  walk.pending.head? = some walk.offset || walk.fresh || walk.origin.column = 0

/-- The walk without the boundaries up to its offset, of those at its offset only the first. -/
def settle (walk : Walk) : Walk :=
  { walk with
    boundaries :=
      if walk.pending.head? = some walk.offset then walk.pending.tail else walk.pending }

/-- The walk past the next character. -/
def step (walk : Walk) (c : Char) : Walk :=
  let walk := walk.makeAll
  (if walk.starts then walk.mark else walk).settle.past c

end Walk

/-- The start of the walk over a patch. -/
def walk (patch : Patch) (file name : String) (boundaries : List Nat) : Walk where
  offset := 0
  origin := .zero
  position := .zero
  fresh := true
  insertions := patch.insertions
  boundaries := boundaries
  map := (SourceMap.empty (some file)).addSource name (some (String.ofList patch.source))

/-- The map of the patched text, told the names of its file and of the text. -/
def sourceMap (patch : Patch) (file name : String) (boundaries : List Nat) : SourceMap :=
  (patch.source.foldl Walk.step (patch.walk file name boundaries)).map

example : String.ofList (((of "ac".toList).insert 1 ['b']).insert 9 ['d']).render = "abcd" := by
  decide +kernel

end Patch

end DeferredLog
