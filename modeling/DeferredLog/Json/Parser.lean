import DeferredLog.Json

/-!
# Reading JSON text

`Json.parse?` reads a text that is one JSON value between white space. Nesting is limited to 127
arrays and objects inside one another. A number without fraction and exponent that fits into 64
bits, signed or not, is an integer; every other number is a double, read by `Double.ofDecimal` from
as many of its digits as fit into 64 bits.

Each reader returns what it read with the rest of the text, and a proof that the rest is shorter:
that is why reading ends.
-/

namespace DeferredLog

namespace Json

/-- A value read from the front of a text shorter than `bound`, and the text behind it. -/
structure Read (α : Type) (bound : Nat) where
  /-- What was read. -/
  value : α
  /-- The text behind it. -/
  rest : List Char
  /-- The text behind it is shorter. -/
  shorter : rest.length < bound

/-- The white space of JSON. -/
def isBlank (c : Char) : Bool :=
  c = ' ' || c = '\n' || c = '\t' || c = '\r'

/-- The text without the white space at its front. -/
def skipBlank (cs : List Char) : List Char :=
  cs.dropWhile isBlank

theorem length_skipBlank_le (cs : List Char) : (skipBlank cs).length ≤ cs.length :=
  (List.dropWhile_suffix isBlank).length_le

/-! ## Numbers -/

/-- The value of a decimal digit. -/
def digitValue (c : Char) : Nat := c.toNat - '0'.toNat

/-- The greatest unsigned integer of 64 bits. -/
def maxUnsigned : Nat := Nat.pow 2 64 - 1

/-- The significand of the digits before the point, and the number of digits left out because the
significand would pass 64 bits. -/
def wholeDigits : List Char → Nat → Nat × Nat
  | [], n => (n, 0)
  | c :: cs, n =>
    if n * 10 + digitValue c ≤ maxUnsigned then wholeDigits cs (n * 10 + digitValue c)
    else (n, cs.length + 1)

/-- The significand with the digits after the point as far as it fits into 64 bits, and the number
of digits taken. -/
def fractionDigits : List Char → Nat → Nat × Nat
  | [], n => (n, 0)
  | c :: cs, n =>
    if n * 10 + digitValue c ≤ maxUnsigned then
      ((fractionDigits cs (n * 10 + digitValue c)).1, (fractionDigits cs (n * 10 + digitValue c)).2 + 1)
    else (n, 0)

/-- The number that a run of decimal digits stands for. -/
def natOfDigits (cs : List Char) : Nat :=
  cs.foldl (fun n c => n * 10 + digitValue c) 0

/-- The parts of a number as written. -/
structure Numeral where
  /-- Whether a minus sign stands before it. -/
  negative : Bool
  /-- The digits before the point. -/
  whole : List Char
  /-- The digits after the point, if there is one. -/
  fraction : Option (List Char)
  /-- The exponent, if there is one. -/
  exponent : Option Int

/-- The value of a number; none where it overflows a double. -/
def Numeral.value (n : Numeral) : Option Json :=
  let (significand, left) := wholeDigits n.whole 0
  match n.fraction, n.exponent with
  | none, none =>
    if left = 0 then
      if !n.negative then some (.integer significand)
      else if significand = 0 || Nat.pow 2 63 < significand then
        (Double.ofDecimal true significand 0).map .double
      else some (.integer (-significand))
    else (Double.ofDecimal n.negative significand left).map .double
  | fraction, exponent =>
    let (significand, taken) := fractionDigits (fraction.getD []) significand
    (Double.ofDecimal n.negative significand (left - taken + exponent.getD 0)).map .double

/-- Splits off the decimal digits at the front. -/
def digits (cs : List Char) : List Char × List Char :=
  (cs.takeWhile Char.isDigit, cs.dropWhile Char.isDigit)

/-- The digits before the point, at least one, and no zero before another. -/
def whole? (cs : List Char) : Option (List Char × List Char) :=
  match digits cs with
  | ([], _) => none
  | ('0' :: _ :: _, _) => none
  | (whole, rest) => some (whole, rest)

/-- The digits after a point, at least one, if a point stands here. -/
def fraction? (cs : List Char) : Option (Option (List Char) × List Char) :=
  match cs with
  | '.' :: cs =>
    match digits cs with
    | ([], _) => none
    | (fraction, rest) => some (some fraction, rest)
  | cs => some (none, cs)

/-- The exponent with its sign and at least one digit, if one stands here. -/
def exponent? (cs : List Char) : Option (Option Int × List Char) :=
  match cs with
  | c :: cs' =>
    if c = 'e' || c = 'E' then
      let (negative, cs') := match cs' with
        | '-' :: r => (true, r)
        | '+' :: r => (false, r)
        | r => (false, r)
      match digits cs' with
      | ([], _) => none
      | (ds, rest) =>
        some (some (if negative then -(natOfDigits ds : Int) else natOfDigits ds), rest)
    else some (none, cs)
  | [] => some (none, [])

/-- Reads a number. -/
def number? (cs : List Char) : Option (Json × List Char) := do
  let (negative, cs) := match cs with
    | '-' :: cs => (true, cs)
    | cs => (false, cs)
  let (whole, cs) ← whole? cs
  let (fraction, cs) ← fraction? cs
  let (exponent, cs) ← exponent? cs
  let value ← Numeral.value ⟨negative, whole, fraction, exponent⟩
  return (value, cs)

/-! ## Strings -/

/-- The character of two surrogate code units. -/
def surrogates? (high low : Nat) : Option Char :=
  if 0xD800 ≤ high ∧ high < 0xDC00 ∧ 0xDC00 ≤ low ∧ low < 0xE000 then
    some (Char.ofNat (0x10000 + (high - 0xD800) * 0x400 + (low - 0xDC00)))
  else none

/-- The character of an escape by one letter. -/
def letterEscape? (c : Char) : Option Char :=
  if c = '"' || c = '\\' || c = '/' then some c
  else if c = 'b' then some '\x08'
  else if c = 'f' then some '\x0C'
  else if c = 'n' then some '\n'
  else if c = 'r' then some '\r'
  else if c = 't' then some '\t'
  else none

/-- Reads the rest of a string, its closing quote included. -/
def stringRest? : List Char → Option (List Char × List Char)
  | [] => none
  | '"' :: cs => some ([], cs)
  | '\\' :: 'u' :: a :: b :: c :: d :: cs => do
    let code ← Text.hexNumber? 0 [a, b, c, d]
    if code < 0xD800 || 0xE000 ≤ code then
      (stringRest? cs).map fun r => (Char.ofNat code :: r.1, r.2)
    else
      match cs with
      | '\\' :: 'u' :: e :: f :: g :: h :: cs => do
        let low ← Text.hexNumber? 0 [e, f, g, h]
        let both ← surrogates? code low
        (stringRest? cs).map fun r => (both :: r.1, r.2)
      | _ => none
  | '\\' :: c :: cs =>
    match letterEscape? c with
    | some e => (stringRest? cs).map fun r => (e :: r.1, r.2)
    | none => none
  | c :: cs =>
    if c.toNat < 0x20 || c = '\\' then none else (stringRest? cs).map fun r => (c :: r.1, r.2)

/-- The result of a reader, if its rest is shorter than the text it was given. -/
def shorter? {α : Type} (bound : Nat) (r : α × List Char) : Option (Read α bound) :=
  if h : r.2.length < bound then some ⟨r.1, r.2, h⟩ else none

/-! ## Values -/

mutual

/-- Reads a value with at most `depth` arrays and objects inside one another. -/
def value? (depth : Nat) (cs : List Char) : Option (Read Json cs.length) :=
  match cs with
  | [] => none
  | c :: rest =>
    if c = 'n' then
      match rest with
      | 'u' :: 'l' :: 'l' :: r => some ⟨.null, r, by simp; omega⟩
      | _ => none
    else if c = 't' then
      match rest with
      | 'r' :: 'u' :: 'e' :: r => some ⟨.bool true, r, by simp; omega⟩
      | _ => none
    else if c = 'f' then
      match rest with
      | 'a' :: 'l' :: 's' :: 'e' :: r => some ⟨.bool false, r, by simp; omega⟩
      | _ => none
    else if c = '"' then do
      let (s, r) ← stringRest? rest
      shorter? _ (.string (String.ofList s), r)
    else if c = '[' then
      match depth with
      | 0 => none
      | depth + 1 =>
        match h : skipBlank rest with
        | ']' :: r => some ⟨.array [], r, by
            have := length_skipBlank_le rest; rw [h] at this; simp at this ⊢; omega⟩
        | _ => do
          let items ← items? depth rest
          return ⟨.array items.value, items.rest, Nat.lt_succ_of_lt items.shorter⟩
    else if c = '{' then
      match depth with
      | 0 => none
      | depth + 1 =>
        match h : skipBlank rest with
        | '}' :: r => some ⟨.object [], r, by
            have := length_skipBlank_le rest; rw [h] at this; simp at this ⊢; omega⟩
        | _ => do
          let members ← members? depth rest
          return ⟨ofMembers members.value, members.rest, Nat.lt_succ_of_lt members.shorter⟩
    else do
      let r ← number? (c :: rest)
      shorter? _ r
termination_by 2 * cs.length

/-- Reads the items of an array, its closing bracket included. -/
def items? (depth : Nat) (cs : List Char) : Option (Read (List Json) cs.length) := do
  let item ← value? depth (skipBlank cs)
  match h : skipBlank item.rest with
  | ',' :: rest =>
    have hrest : rest.length < cs.length := by
      have h₁ := item.shorter
      have h₂ := length_skipBlank_le item.rest
      have h₃ := length_skipBlank_le cs
      rw [h] at h₂
      simp at h₂
      omega
    let items ← items? depth rest
    return ⟨item.value :: items.value, items.rest, Nat.lt_trans items.shorter hrest⟩
  | ']' :: rest => some ⟨[item.value], rest, by
      have h₁ := item.shorter
      have h₂ := length_skipBlank_le item.rest
      have h₃ := length_skipBlank_le cs
      rw [h] at h₂
      simp at h₂
      omega⟩
  | _ => none
termination_by 2 * cs.length + 1
decreasing_by
  · have := length_skipBlank_le cs
    omega
  · omega

/-- Reads the members of an object, its closing brace included. -/
def members? (depth : Nat) (cs : List Char) : Option (Read (List (String × Json)) cs.length) := do
  match hq : skipBlank cs with
  | '"' :: inner =>
    let (key, afterKey) ← stringRest? inner
    let colon ← shorter? inner.length ((), afterKey)
    match hc : skipBlank colon.rest with
    | ':' :: afterColon =>
      have hcolon : afterColon.length + 2 < cs.length := by
        have h₁ := colon.shorter
        have h₂ := length_skipBlank_le colon.rest
        have h₃ := length_skipBlank_le cs
        rw [hq] at h₃
        rw [hc] at h₂
        simp at h₂ h₃
        omega
      let value ← value? depth (skipBlank afterColon)
      have hvalue : value.rest.length < afterColon.length :=
        Nat.lt_of_lt_of_le value.shorter (length_skipBlank_le afterColon)
      match h : skipBlank value.rest with
      | ',' :: rest =>
        have hrest : rest.length < cs.length := by
          have h₂ := length_skipBlank_le value.rest
          rw [h] at h₂
          simp at h₂
          omega
        let members ← members? depth rest
        return ⟨(String.ofList key, value.value) :: members.value, members.rest,
          Nat.lt_trans members.shorter hrest⟩
      | '}' :: rest => some ⟨[(String.ofList key, value.value)], rest, by
          have h₂ := length_skipBlank_le value.rest
          rw [h] at h₂
          simp at h₂
          omega⟩
      | _ => none
    | _ => none
  | _ => none
termination_by 2 * cs.length + 1
decreasing_by
  · have := length_skipBlank_le afterColon
    omega
  · omega

end

/-- How many arrays and objects may stand inside one another. -/
def maxDepth : Nat := 127

/-- Reads a text that is one JSON value between white space. -/
def parse? (text : String) : Option Json := do
  let read ← value? maxDepth (skipBlank text.toList)
  if skipBlank read.rest = [] then some read.value else none

end Json

end DeferredLog
