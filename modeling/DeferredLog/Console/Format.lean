import DeferredLog.Json

/-!
# The text of console arguments

The arguments of a console call as one line. If the first is a string, it is a template: a percent
sign with a letter takes the next argument. The arguments that are left follow, with blanks between
them.

* `Format.fill` fills in a template, `Format.text` gives the line.
* `Format.display` is the text of one argument: a string stands for itself.
* `Format.fill_literal`: a template without percent signs stands for itself and takes nothing.
-/

namespace DeferredLog.Format

/-- The text of an argument. -/
def display : Json → String
  | .string s => s
  | value => value.text

/-- The double nearest to a number. -/
def number? : Json → Option Double
  | .integer n => Double.round (n < 0) n.natAbs 1
  | .double d => some d
  | _ => none

/-- The greatest integer of 64 bits. -/
def maxInteger : Nat := Nat.pow 2 63 - 1

/-- The integer next to a double toward zero, or the greatest or least one of 64 bits past those. -/
def integer (d : Double) : Int :=
  if d.negative then -(min d.truncated (maxInteger + 1) : Nat) else (min d.truncated maxInteger : Nat)

/-- The text of a number as an integer. -/
def integerText (value : Json) : String :=
  match number? value with
  | some d => toString (integer d)
  | none => "NaN"

/-- The text of a number with its fraction. -/
def decimalText (value : Json) : String :=
  match number? value with
  | some d => d.positional
  | none => "NaN"

/-- The letters that take an argument behind a percent sign. -/
def takes (c : Char) : Bool :=
  c = 's' || c = 'd' || c = 'i' || c = 'f' || c = 'o' || c = 'O' || c = 'c'

/-- The text of an argument that a letter takes. The argument of `c` is a style and has no text. -/
def taken (letter : Char) (value : Json) : String :=
  if letter = 's' then display value
  else if letter = 'd' || letter = 'i' then integerText value
  else if letter = 'f' then decimalText value
  else if letter = 'o' || letter = 'O' then value.text
  else ""

/-- A template with the arguments filled in that it takes, and the others. Two percent signs stand
for one, and one stands for itself where no letter or no argument follows. -/
def fill : List Char → List Json → List Char × List Json
  | [], values => ([], values)
  | ['%'], values => (['%'], values)
  | '%' :: '%' :: cs, values =>
    let (text, rest) := fill cs values
    ('%' :: text, rest)
  | '%' :: c :: cs, [] =>
    let (text, rest) := fill (c :: cs) []
    ('%' :: text, rest)
  | '%' :: c :: cs, value :: values =>
    if takes c then
      let (text, rest) := fill cs values
      ((taken c value).toList ++ text, rest)
    else
      let (text, rest) := fill (c :: cs) (value :: values)
      ('%' :: text, rest)
  | c :: cs, values =>
    let (text, rest) := fill cs values
    (c :: text, rest)

/-- Puts one more argument behind a text, with a blank between them unless the text is empty. -/
def append (text : List Char) (value : Json) : List Char :=
  if text.isEmpty then (display value).toList else text ++ ' ' :: (display value).toList

/-- The line for some arguments. -/
def text (values : List Json) : String :=
  let (start, rest) := match values with
    | .string template :: values => fill template.toList values
    | values => ([], values)
  String.ofList (rest.foldl append start)

theorem fill_literal {template : List Char} (h : '%' ∉ template) (values : List Json) :
    fill template values = (template, values) := by
  induction template with
  | nil => rw [fill]
  | cons c cs ih =>
    simp only [List.mem_cons, not_or] at h
    rw [fill]
    · rw [ih h.2]
    all_goals grind

example : text [.string "%s=%o 100%% %x", .string "k", .array [.integer 1], .null]
    = "k=[1] 100% %x null" := by decide +kernel

end DeferredLog.Format
