import DeferredLog.SourceMap.Fault

/-!
# Numbers of variable length

An integer of 64 bits as a string of base-64 digits. The sign goes into the lowest bit of a code,
and the code is written five bits at a time, the lowest first. A digit of 32 or more says that
another one follows.

* `Vlq.encode` writes an integer, `Vlq.read` reads one off the front of a text.
* `readCode_digits`: a code is read back, and what follows it is left alone.
* `read_encode`: so is an integer, other than the smallest one: its absolute value times two does
  not fit into the code.
-/

namespace DeferredLog.Vlq

/-- The digits in the order of their values. -/
def alphabet : List Char :=
  "ABCDEFGHIJKLMNOPQRSTUVWXYZabcdefghijklmnopqrstuvwxyz0123456789+/".toList

/-- The digit with a value below 64. -/
def digit (value : Nat) : Char :=
  alphabet[value]?.getD 'A'

/-- The value of a digit. -/
def digitValue? (c : Char) : Option Nat :=
  alphabet.idxOf? c

/-- The number of codes: they have 64 bits. -/
def codes : Nat := Nat.pow 2 64

/-- The code of an integer: twice its absolute value, and one more for a negative one. -/
def code (value : Int) : Nat :=
  2 * value.natAbs % codes + if value < 0 then 1 else 0

/-- The integer with a code. -/
def value (code : Nat) : Int :=
  if code % 2 = 1 then -((code / 2 : Nat) : Int) else ((code / 2 : Nat) : Int)

/-- The digits of a code, the lowest first. -/
def digits (code : Nat) : List Char :=
  if code < 32 then [digit code]
  else digit (32 + code % 32) :: digits (code / 32)

/-- The text of an integer. -/
def encode (value : Int) : List Char :=
  digits (code value)

/-- The number that the digits at the front of a text write, and the rest of the text. -/
def readCode : List Char → Except MapFault (Nat × List Char)
  | [] => .error .truncated
  | c :: cs =>
    match digitValue? c with
    | none => .error (.invalidDigit c)
    | some d =>
      if d < 32 then .ok (d, cs)
      else (readCode cs).map fun (code, rest) => (d - 32 + 32 * code, rest)

/-- The integer at the front of a text, and the rest of the text. Bits of its code past the last one
are dropped. -/
def read (text : List Char) : Except MapFault (Int × List Char) :=
  (readCode text).map fun (code, rest) => (value (code % codes), rest)

theorem length_readCode {text rest : List Char} {code : Nat}
    (h : readCode text = .ok (code, rest)) : rest.length < text.length := by
  induction text generalizing code rest with
  | nil => simp [readCode] at h
  | cons c cs ih =>
    rw [readCode] at h
    split at h
    · simp at h
    · split at h
      · simp only [Except.ok.injEq, Prod.mk.injEq] at h
        simp [← h.2]
      · cases hr : readCode cs with
        | error fault => simp [hr, Except.map] at h
        | ok found =>
          simp only [hr, Except.map, Except.ok.injEq, Prod.mk.injEq] at h
          have hlt := ih hr
          rw [h.2] at hlt
          simp only [List.length_cons]
          omega

theorem length_read {text rest : List Char} {number : Int}
    (h : read text = .ok (number, rest)) : rest.length < text.length := by
  cases hr : readCode text with
  | error fault => simp [read, hr, Except.map] at h
  | ok found =>
    simp only [read, hr, Except.map, Except.ok.injEq, Prod.mk.injEq] at h
    exact h.2 ▸ length_readCode hr

theorem digitValue?_digit : ∀ d < 64, digitValue? (digit d) = some d := by decide +kernel

theorem readCode_digits (code : Nat) (rest : List Char) :
    readCode (digits code ++ rest) = .ok (code, rest) := by
  induction code using digits.induct with
  | case1 code h =>
    rw [digits, if_pos h, List.singleton_append, readCode, digitValue?_digit code (by omega)]
    simp [h]
  | case2 code h ih =>
    rw [digits, if_neg h, List.cons_append, readCode, digitValue?_digit _ (by omega)]
    simp only [ih, Except.map]
    rw [if_neg (by omega)]
    congr 2
    omega

theorem value_code {number : Int} (h : 2 * number.natAbs < codes) :
    value (code number % codes) = number := by
  have hcodes : codes = 2 * 9223372036854775808 := rfl
  have hcode : code number = 2 * number.natAbs + if number < 0 then 1 else 0 := by
    rw [code, Nat.mod_eq_of_lt h]
  have hlt : code number < codes := by
    rw [hcode]
    split <;> omega
  rw [Nat.mod_eq_of_lt hlt, value, hcode]
  split <;> split <;> omega

theorem read_encode {number : Int} (h : 2 * number.natAbs < codes) (rest : List Char) :
    read (encode number ++ rest) = .ok (number, rest) := by
  simp only [read, encode, readCode_digits, Except.map, value_code h]

example : encode 16 = ['g', 'B'] ∧ encode (-1) = ['D'] ∧ encode (-9223372036854775808) = ['B'] := by
  decide +kernel

end DeferredLog.Vlq
