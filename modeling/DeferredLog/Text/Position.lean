import DeferredLog.Text.Size

/-!
# Positions

A position is a line and a column, both counted from zero. A line ends with a line feed and nothing
else, and columns count UTF-16 code units.

* `Position.ofOffset` is the position of a byte offset, `Position.offset?` the way back.
* `Position.ofOffset_size`: on a boundary between two characters, the position of the offset is the
  one that is reached by walking over the text before it.
-/

namespace DeferredLog

/-- A line and a column. -/
structure Position where
  /-- The number of line feeds before the position. -/
  line : Nat
  /-- The number of code units since the last of them. -/
  column : Nat
  deriving DecidableEq, Repr

namespace Position

/-- The start of a text. -/
def zero : Position := ⟨0, 0⟩

/-- The position behind a character. -/
def next (position : Position) (c : Char) : Position :=
  if c = '\n' then ⟨position.line + 1, 0⟩
  else ⟨position.line, position.column + Text.charUnits c⟩

/-- The position behind a text. -/
def after (position : Position) (text : List Char) : Position :=
  text.foldl next position

@[simp]
theorem after_nil (position : Position) : position.after [] = position := rfl

@[simp]
theorem after_cons (position : Position) (c : Char) (text : List Char) :
    position.after (c :: text) = (position.next c).after text := rfl

@[simp]
theorem after_append (position : Position) (a b : List Char) :
    position.after (a ++ b) = (position.after a).after b := by
  simp [after]

/-- The position so many bytes behind another, or of the end of the text where there are fewer. A
place inside a character counts as the start of its line. -/
def walk (position : Position) : Nat → List Char → Position
  | 0, _ => position
  | _ + 1, [] => position
  | n + 1, c :: cs =>
    if c.utf8Size ≤ n + 1 then walk (position.next c) (n + 1 - c.utf8Size) cs
    else ⟨position.line, 0⟩

/-- The position of a byte offset into a text. -/
def ofOffset (source : List Char) (offset : Nat) : Position :=
  walk zero offset source

theorem walk_size (position : Position) (a b : List Char) :
    walk position (Text.size a) (a ++ b) = position.after a := by
  induction a generalizing position with
  | nil => simp [walk]
  | cons c a ih =>
    have hc := c.utf8Size_pos
    obtain ⟨n, hn⟩ : ∃ n, c.utf8Size + Text.size a = n + 1 :=
      ⟨c.utf8Size + Text.size a - 1, by omega⟩
    rw [Text.size_cons, hn, List.cons_append, walk, if_pos (by omega), after_cons,
      show n + 1 - c.utf8Size = Text.size a by omega, ih]

theorem ofOffset_size (a b : List Char) : ofOffset (a ++ b) (Text.size a) = zero.after a :=
  walk_size zero a b

/-- The byte offset of a position, in a text that starts at another position and offset. -/
def search? (position : Position) (target : Position) (offset : Nat) : List Char → Option Nat
  | [] => if position = target then some offset else none
  | c :: cs =>
    if position = target then some offset
    else search? (position.next c) target (offset + c.utf8Size) cs

/-- The byte offset of a position, if the position is one of a boundary between two characters. -/
def offset? (source : List Char) (position : Position) : Option Nat :=
  search? zero position 0 source

/-- The number of lines of a text; the last one may be empty. -/
def lineCount (source : List Char) : Nat :=
  source.count '\n' + 1

example : ofOffset "é😀x\ny".toList 6 = ⟨0, 3⟩ ∧ ofOffset "é😀x\ny".toList 8 = ⟨1, 0⟩ := by
  decide +kernel

example : ofOffset "é😀x\ny".toList 5 = ⟨0, 0⟩ ∧ offset? "é😀x\ny".toList ⟨0, 2⟩ = none := by
  decide +kernel

end Position

end DeferredLog
