import DeferredLog.Number.Shortest
import DeferredLog.Text.Quoted

/-!
# JSON values

Log arguments and source maps are JSON values. A number is an integer of 64 bits, signed or not, or
a double. The members of an object stand in the order of their keys by code point, each key once;
`Json.insertMember` keeps that order and replaces the value of a key it finds.

* `Json.text` is the compact text of a value.
* `Json.shown` is the text a debugging view gives it, with the name of each kind of value.
-/

namespace DeferredLog

/-- A JSON value. -/
inductive Json where
  | null
  | bool (value : Bool)
  | integer (value : Int)
  | double (value : Double)
  | string (value : String)
  | array (items : List Json)
  | object (members : List (String × Json))
  deriving Inhabited, Repr

namespace Json

/-- Puts a member into a list of members ordered by key, in the place of one with the same key. -/
def insertMember (key : String) (value : Json) : List (String × Json) → List (String × Json)
  | [] => [(key, value)]
  | (k, v) :: members =>
    if key = k then (key, value) :: members
    else if key < k then (key, value) :: (k, v) :: members
    else (k, v) :: insertMember key value members

/-- The object with the given members; of two with one key the later counts. -/
def ofMembers (members : List (String × Json)) : Json :=
  .object (members.foldl (fun done member => insertMember member.1 member.2 done) [])

/-- The member of an object with a key. -/
def get? (key : String) : Json → Option Json
  | .object members => members.lookup key
  | _ => none

/-- The text of a string value. -/
def string? : Json → Option String
  | .string s => some s
  | _ => none

/-- The items of an array. -/
def array? : Json → Option (List Json)
  | .array items => some items
  | _ => none

/-- The value of an integer that is not negative. -/
def natural? : Json → Option Nat
  | .integer n => if 0 ≤ n then some n.toNat else none
  | _ => none

/-! ## Text -/

/-- How a character is written in a string of JSON text: only the quote, the backslash and the
controls are escaped. -/
def escape (c : Char) : String :=
  if c = '"' then "\\\""
  else if c = '\\' then "\\\\"
  else if c = '\x08' then "\\b"
  else if c = '\x0C' then "\\f"
  else if c = '\n' then "\\n"
  else if c = '\r' then "\\r"
  else if c = '\t' then "\\t"
  else if c.toNat < 0x10 then "\\u000" ++ Text.hex c.toNat
  else if c.toNat < 0x20 then "\\u00" ++ Text.hex c.toNat
  else c.toString

/-- A string as JSON text. -/
def quoted (s : String) : String :=
  "\"" ++ String.join (s.toList.map escape) ++ "\""

mutual

/-- The compact JSON text of a value. -/
def text : Json → String
  | .null => "null"
  | .bool b => if b then "true" else "false"
  | .integer n => toString n
  | .double d => d.text
  | .string s => quoted s
  | .array items => "[" ++ itemsText items ++ "]"
  | .object members => "\x7b" ++ membersText members ++ "\x7d"

/-- The texts of the items of an array, with commas between them. -/
def itemsText : List Json → String
  | [] => ""
  | [item] => item.text
  | item :: items => item.text ++ "," ++ itemsText items

/-- The texts of the members of an object, with commas between them. -/
def membersText : List (String × Json) → String
  | [] => ""
  | [(key, value)] => quoted key ++ ":" ++ value.text
  | (key, value) :: members => quoted key ++ ":" ++ value.text ++ "," ++ membersText members

end

/-! ## The debugging view -/

mutual

/-- The debugging view of a value. -/
def shown : Json → String
  | .null => "Null"
  | .bool b => if b then "Bool(true)" else "Bool(false)"
  | .integer n => "Number(" ++ toString n ++ ")"
  | .double d => "Number(" ++ d.text ++ ")"
  | .string s => "String(" ++ Text.quote s ++ ")"
  | .array items => "Array [" ++ itemsShown items ++ "]"
  | .object members => "Object \x7b" ++ membersShown members ++ "\x7d"

/-- The views of the items of an array, with commas between them. -/
def itemsShown : List Json → String
  | [] => ""
  | [item] => item.shown
  | item :: items => item.shown ++ ", " ++ itemsShown items

/-- The views of the members of an object, with commas between them. -/
def membersShown : List (String × Json) → String
  | [] => ""
  | [(key, value)] => Text.quote key ++ ": " ++ value.shown
  | (key, value) :: members =>
    Text.quote key ++ ": " ++ value.shown ++ ", " ++ membersShown members

end

example : (ofMembers [("b", .integer 1), ("a", .null), ("b", .bool true)]).text
    = "\x7b\"a\":null,\"b\":true\x7d" := by decide +kernel

example : (Json.string "a\n\x01\"é").text = "\"a\\n\\u0001\\\"é\"" := by decide +kernel

end Json

end DeferredLog
