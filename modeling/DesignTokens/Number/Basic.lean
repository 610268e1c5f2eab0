/-
The numbers of a document. A whole number written without a point or an
exponent, and within 64 bits, stays the integer it is; every other number is a
binary floating-point number. `1` and `1.0` are different numbers here, and are
written back as they came; only comparisons look at the value alone.
-/
import DesignTokens.Number.Binary64

namespace DesignTokens

/-- A number as a document holds it. -/
inductive Number where
  | integer (n : Int)
  | double (x : Binary64)
  deriving DecidableEq, Repr

namespace Number

/-- The whole number `n`. -/
def ofNat (n : Nat) : Number := .integer n

/-- Whether the value lies between two natural numbers, both included. -/
def isBetween (lo hi : Nat) : Number → Bool
  | .integer n => (lo : Int) ≤ n && n ≤ (hi : Int)
  | .double x => x.isBetween lo hi

/-- Whether the value has no fractional part. -/
def isWhole : Number → Bool
  | .integer _ => true
  | .double x => x.isWhole

end Number

end DesignTokens
