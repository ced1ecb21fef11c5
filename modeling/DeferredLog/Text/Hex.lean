/-!
# Hexadecimal digits

Numbers as hexadecimal text, and the values of hexadecimal digits.
-/

namespace DeferredLog.Text

/-- A number in lower-case hexadecimal digits, without leading zeros. -/
def hex (n : Nat) : String :=
  String.ofList (Nat.toDigits 16 n)

/-- The value of a hexadecimal digit in either case. -/
def hexValue? (c : Char) : Option Nat :=
  if '0' ≤ c ∧ c ≤ '9' then some (c.toNat - '0'.toNat)
  else if 'a' ≤ c ∧ c ≤ 'f' then some (c.toNat - 'a'.toNat + 10)
  else if 'A' ≤ c ∧ c ≤ 'F' then some (c.toNat - 'A'.toNat + 10)
  else none

/-- The number that some hexadecimal digits continue; none if one is no digit. -/
def hexNumber? (n : Nat) : List Char → Option Nat
  | [] => some n
  | c :: cs => (hexValue? c).bind fun d => hexNumber? (n * 16 + d) cs

example : hex 0x301 = "301" ∧ hex 10 = "a" := by decide +kernel

example : hexNumber? 0 ['1', 'F', 'f'] = some 0x1FF ∧ hexNumber? 0 ['g'] = none := by decide +kernel

end DeferredLog.Text
