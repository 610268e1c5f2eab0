/-
Finite binary floating-point numbers of 64 bits, as exact dyadic fractions.

A number is a sign, a mantissa below 2^53 and an exponent of two between
-1074 and 971; the mantissa is at least 2^52 unless the exponent is the least
one. So each number has one form, and equality of forms tells the two zeros
apart. `ofRatio` rounds a fraction to the nearest such number, a tie to the
even mantissa; products and quotients are the exact ones, rounded once.
-/

namespace DesignTokens

/-- The number `mantissa * 2 ^ exponent`, with its sign. -/
structure Binary64 where
  negative : Bool
  mantissa : Nat
  exponent : Int
  deriving DecidableEq, Repr

namespace Binary64

/-- The least exponent, that of the subnormal numbers. -/
def minExponent : Int := -1074

/-- The greatest exponent of a finite number. -/
def maxExponent : Int := 971

/-- A normal mantissa lies from this bound to twice this bound. -/
def normalMantissa : Nat := Nat.pow 2 52

/-- Zero with a sign. -/
def zero (negative : Bool) : Binary64 := ⟨negative, 0, minExponent⟩

/-- Whether the number is one of the two zeros. -/
def isZero (x : Binary64) : Bool := x.mantissa == 0

/-- The nearest whole number to `n / d`; a tie goes to the even one. -/
def roundQuotient (n d : Nat) : Nat :=
  let q := n / d
  let twice := 2 * (n % d)
  if twice < d then q
  else if d < twice then q + 1
  else q + q % 2

/-- `n * 2 ^ e` for `e ≥ 0`, and `n` itself below. -/
def shiftUp (n : Nat) (e : Int) : Nat := n * Nat.pow 2 e.toNat

/-- The exponent at which `n / d` has a mantissa of 53 bits, or the least one. -/
def exponentOf (n d : Nat) : Int :=
  let e : Int := (Nat.log2 n : Int) - (Nat.log2 d : Int) - 53
  let q := shiftUp n (-e) / shiftUp d e
  max minExponent (if q < 2 * normalMantissa then e else e + 1)

/--
The binary number nearest to `n / d`; a tie goes to the even mantissa. There
is none when the fraction rounds beyond the greatest finite number.
-/
def ofRatio (negative : Bool) (n d : Nat) : Option Binary64 :=
  if n = 0 then some (zero negative)
  else
    let e := exponentOf n d
    let m := roundQuotient (shiftUp n (-e)) (shiftUp d e)
    let (m, e) := if m = 2 * normalMantissa then (normalMantissa, e + 1) else (m, e)
    if e ≤ maxExponent then some ⟨negative, m, e⟩ else none

/-- The rounded product of two magnitudes, with the sign of the first. -/
def mul (x y : Binary64) : Option Binary64 :=
  let e := x.exponent + y.exponent
  ofRatio x.negative (shiftUp (x.mantissa * y.mantissa) e) (shiftUp 1 (-e))

/-- The rounded quotient of two magnitudes, with the sign of the first. -/
def div (x y : Binary64) : Option Binary64 :=
  let e := x.exponent - y.exponent
  ofRatio x.negative (shiftUp x.mantissa e) (shiftUp y.mantissa (-e))

/-- The number's magnitude as a fraction: numerator and denominator. -/
def magnitude (x : Binary64) : Nat × Nat :=
  (shiftUp x.mantissa x.exponent, shiftUp 1 (-x.exponent))

/-- Whether the value has no fractional part. -/
def isWhole (x : Binary64) : Bool :=
  let (n, d) := x.magnitude
  n % d == 0

/-- Whether the value lies between two natural numbers, both included. -/
def isBetween (lo hi : Nat) (x : Binary64) : Bool :=
  let (n, d) := x.magnitude
  if x.negative && !x.isZero then false else lo * d ≤ n && n ≤ hi * d

end Binary64

end DesignTokens
