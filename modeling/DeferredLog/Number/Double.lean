/-!
# Doubles

A finite double is `± mantissa · 2^exponent` with a mantissa below 2^53. All arithmetic on it is
exact in natural numbers and rounds once, to the nearest double, a half to the even mantissa.

* `Double.round` is the double nearest to a fraction, and none where that overflows.
* `Double.mul` and `Double.div` round the exact product and quotient.
* `Double.ofDecimal` reads a significand with a power of ten: the significand is rounded first, and
  then multiplied or divided by the rounded power, so it may differ from the nearest double in the
  last place. This is the number a reader of JSON text gets that keeps no long form of it.
-/

namespace DeferredLog

/-- A finite double, `± mantissa · 2^exponent`. -/
structure Double where
  /-- Whether the sign is minus. Zero has both signs. -/
  negative : Bool
  /-- The mantissa, below 2^53, and at least 2^52 unless the exponent is the least one. -/
  mantissa : Nat
  /-- The power of two, from -1074 to 971. -/
  exponent : Int
  deriving DecidableEq, Repr

namespace Double

/-- The least exponent of two. -/
def minExponent : Int := -1074

/-- The greatest exponent of two. -/
def maxExponent : Int := 971

/-- The double zero with a sign. -/
def zero (negative : Bool) : Double := ⟨negative, 0, minExponent⟩

/-- Where a number goes that lies half way between two neighbours. -/
inductive Tie where
  /-- To the even one. -/
  | even
  /-- To the greater one. -/
  | up
  deriving DecidableEq, Repr

/-- Whether the number half way between a natural number and the next one goes to the next one. -/
def Tie.leaves (tie : Tie) (low : Nat) : Bool :=
  match tie with
  | .even => low % 2 = 1
  | .up => true

/-- The quotient rounded to the nearest natural number. -/
def roundQuotient (tie : Tie) (num den : Nat) : Nat :=
  let low := num / den
  let twice := 2 * (num % den)
  if den < twice || (twice = den && tie.leaves low) then low + 1 else low

/-- A fraction with a power of two taken out of it: `num / den = scaled.1 / scaled.2 · 2^exponent`. -/
def scaled (num den : Nat) (exponent : Int) : Nat × Nat :=
  (num * Nat.pow 2 (-exponent).toNat, den * Nat.pow 2 exponent.toNat)

/-- The exponent at which the fraction `num / den` has 53 binary digits, or the least one. -/
def exponentOf (num den : Nat) : Int :=
  let guess : Int := num.log2 - den.log2 - 52
  let (n, d) := scaled num den guess
  max minExponent (if n < d * Nat.pow 2 52 then guess - 1 else guess)

/-- The double nearest to `± num / den`, a half to the even mantissa; none if it overflows. -/
def round (negative : Bool) (num den : Nat) : Option Double :=
  if num = 0 then some (zero negative)
  else
    let exponent := exponentOf num den
    let (n, d) := scaled num den exponent
    let mantissa := roundQuotient .even n d
    let (mantissa, exponent) :=
      if mantissa = Nat.pow 2 53 then (Nat.pow 2 52, exponent + 1) else (mantissa, exponent)
    if maxExponent < exponent then none else some ⟨negative, mantissa, exponent⟩

/-- The product of two doubles, rounded. -/
def mul (a b : Double) : Option Double :=
  let exponent := a.exponent + b.exponent
  round (a.negative != b.negative) (a.mantissa * b.mantissa * Nat.pow 2 exponent.toNat)
    (Nat.pow 2 (-exponent).toNat)

/-- The quotient of two doubles, rounded. The divisor is not zero. -/
def div (a b : Double) : Option Double :=
  let exponent := a.exponent - b.exponent
  round (a.negative != b.negative) (a.mantissa * Nat.pow 2 exponent.toNat)
    (b.mantissa * Nat.pow 2 (-exponent).toNat)

/-- The double nearest to a power of ten. -/
def powerOfTen (n : Nat) : Option Double :=
  round false (Nat.pow 10 n) 1

/-- The double read from `± significand · 10^exponent`: the rounded significand times or divided by
the rounded power of ten, in two divisions where the power itself is out of range. It is none where
the number overflows. -/
def ofDecimal (negative : Bool) (significand : Nat) (exponent : Int) : Option Double := do
  let whole ← round negative significand 1
  if 0 ≤ exponent then
    if exponent ≤ 308 then mul whole (← powerOfTen exponent.toNat)
    else if significand = 0 then some whole
    else none
  else if -308 ≤ exponent then div whole (← powerOfTen (-exponent).toNat)
  else if -616 ≤ exponent then
    div (← div whole (← powerOfTen 308)) (← powerOfTen (-exponent - 308).toNat)
  else some (zero negative)

/-- The absolute value rounded toward zero. -/
def truncated (d : Double) : Nat :=
  d.mantissa * Nat.pow 2 d.exponent.toNat / Nat.pow 2 (-d.exponent).toNat

example : ofDecimal false 5 (-1) = some ⟨false, Nat.pow 2 52, -53⟩ := by decide +kernel

example : ofDecimal false 1 400 = none ∧ ofDecimal true 0 400 = some (zero true) := by decide +kernel

example : (ofDecimal true 29 (-1)).map truncated = some 2 := by decide +kernel

end Double

end DeferredLog
