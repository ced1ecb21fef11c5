import DeferredLog.Number.Double

/-!
# The shortest decimal of a double

A double is written with the fewest decimal digits that read back as it, and of those with the
nearest ones. The digits are found in exact arithmetic: for one digit, then two, and so on, the two
neighbours of the value on that decimal grid are tested against the interval of the numbers that
round to the double. Where both are equally near, the caller says which one is taken: the two ways
to write a double differ in that.

* `Double.shortest` gives the digits and their power of ten.
* `Double.positional` writes them without an exponent, `Double.text` with one where the number is
  very large or very small.
-/

namespace DeferredLog

namespace Double

/-- The position of the decimal point before the first digit: the value is below `10^place`, and at
least a tenth of it. -/
def place (d : Double) : Int :=
  let guess : Int := (d.exponent + d.mantissa.log2) * 78913 / Nat.pow 2 18 + 1
  let reached := Nat.pow 10 guess.toNat * Nat.pow 2 (-d.exponent).toNat
    ≤ d.mantissa * Nat.pow 2 d.exponent.toNat * Nat.pow 10 (-guess).toNat
  if reached then guess + 1 else guess

/-- Whether `digits · 10^exponent` rounds to the double. Both ends of the interval count when the
mantissa is even, and the interval is narrower below a power of two. -/
def reads (d : Double) (digits : Nat) (exponent : Int) : Bool :=
  let power := d.exponent - 2
  let value := digits * Nat.pow 10 exponent.toNat * Nat.pow 2 (-power).toNat
  let unit := Nat.pow 10 (-exponent).toNat * Nat.pow 2 power.toNat
  let below := if d.mantissa = Nat.pow 2 52 && minExponent < d.exponent then 1 else 2
  let low := (4 * d.mantissa - below) * unit
  let high := (4 * d.mantissa + 2) * unit
  if d.mantissa % 2 = 0 then low ≤ value && value ≤ high else low < value && value < high

/-- The multiple of `10^exponent` nearest to the value that reads back as it, if there is one. -/
def nearestOn (d : Double) (tie : Tie) (exponent : Int) : Option Nat :=
  let num := d.mantissa * Nat.pow 2 d.exponent.toNat * Nat.pow 10 (-exponent).toNat
  let den := Nat.pow 2 (-d.exponent).toNat * Nat.pow 10 exponent.toNat
  let near := roundQuotient tie num den
  let low := num / den
  let far := if near = low then low + 1 else low
  if d.reads near exponent then some near
  else if d.reads far exponent then some far
  else none

/-- Drops the zeros at the end of a number and counts them. -/
def dropZeros : Nat → Nat → Nat × Nat
  | 0, n => (n, 0)
  | fuel + 1, n =>
    if n % 10 = 0 then ((dropZeros fuel (n / 10)).1, (dropZeros fuel (n / 10)).2 + 1) else (n, 0)

/-- The digits of the shortest decimal of the absolute value, and their power of ten. The tie says
which of two equally near decimals it is. -/
def shortest (d : Double) (tie : Tie) : Nat × Int :=
  if d.mantissa = 0 then (0, 0)
  else
    let found := (List.range 17).findSome? fun (n : Nat) =>
      (d.nearestOn tie (d.place - n - 1)).map fun digits => (digits, d.place - n - 1)
    let (digits, exponent) := found.getD (d.mantissa, 0)
    let (kept, dropped) := dropZeros 17 digits
    (kept, exponent + dropped)

/-- A run of zeros. -/
def zeros (n : Nat) : String :=
  String.ofList (List.replicate n '0')

/-- The decimal digits of the value in positional notation: before the point, and after it. -/
def parts (d : Double) (tie : Tie) : String × String :=
  let (digits, exponent) := d.shortest tie
  let text := toString digits
  if 0 ≤ exponent then (text ++ zeros exponent.toNat, "")
  else
    let after := (-exponent).toNat
    if after < text.length then
      (String.ofList (text.toList.take (text.length - after)),
        String.ofList (text.toList.drop (text.length - after)))
    else ("0", zeros (after - text.length) ++ text)

/-- The minus sign of a negative number. -/
def sign (d : Double) : String :=
  if d.negative then "-" else ""

/-- The shortest decimal in positional notation, with a point only before a fraction. A tie goes
away from zero. -/
def positional (d : Double) : String :=
  let (whole, fraction) := d.parts .up
  d.sign ++ whole ++ if fraction = "" then "" else "." ++ fraction

/-- The shortest decimal. Numbers from 10^-5 to below 10^16 are positional, with at least one
digit after the point; the others have an exponent with its sign. A tie goes to the even digit. -/
def text (d : Double) : String :=
  let (digits, exponent) := d.shortest .even
  let size := (toString digits).length
  let leading := exponent + size - 1
  if d.mantissa = 0 || (-5 ≤ leading && leading ≤ 15) then
    let (whole, fraction) := d.parts .even
    d.sign ++ whole ++ "." ++ if fraction = "" then "0" else fraction
  else
    let first := String.ofList ((toString digits).toList.take 1)
    let rest := String.ofList ((toString digits).toList.drop 1)
    d.sign ++ first ++ (if rest = "" then "" else "." ++ rest) ++ "e"
      ++ (if leading < 0 then "-" else "+") ++ toString leading.natAbs

example : (ofDecimal false 1 (-1)).map text = some "0.1" := by decide +kernel

example : (ofDecimal false 1 16).map text = some "1e+16" := by decide +kernel

example : (ofDecimal false 123456 (-11)).map text = some "1.23456e-6" := by decide +kernel

example : (ofDecimal false 5 (-324)).map text = some "5e-324" := by decide +kernel

example : (ofDecimal true 1 0).map positional = some "-1" := by decide +kernel

example : (ofDecimal false 17592186044417062 (-3)).map text = some "17592186044417.062" ∧
    (ofDecimal false 17592186044417062 (-3)).map positional = some "17592186044417.063" := by
  decide +kernel

end Double

end DeferredLog
