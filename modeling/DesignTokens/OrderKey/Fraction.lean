/-
Fractions between fractions. A fraction is a list of digits that does not end
in zero; fractions compare as lists do. `Fraction.between a b` lies strictly
between `a` and `b`, and `Fraction.above a` lies above `a`; neither ends in
zero.

A missing digit counts as zero below and as one more than the greatest digit
above. Equal digits are kept; where the next ones leave room the digit half
way is taken; and where they are neighbours the result either stops at the
upper one, or keeps the lower one and goes on above what follows it.
-/
import DesignTokens.OrderKey.Digit

namespace DesignTokens.OrderKey.Fraction

/-- The digit half way between two values, rounded up; the second is at most 62. -/
def half (x y : Nat) (h : x + y < 123) : Digit := ⟨(x + y + 1) / 2, by omega⟩

/-- A fraction above `a`. -/
def above : List Digit → List Digit
  | [] => [half 0 62 (by omega)]
  | d :: ds => if h : d.val < 61 then [half d.val 62 (by omega)] else d :: above ds

/-- A fraction between `a` and `b`. -/
def between (a : List Digit) : List Digit → List Digit
  | [] => above a
  | y :: ys =>
    let x := a.headD Digit.zero
    if x = y then y :: between a.tail ys
    else if x.val + 1 < y.val then [half x.val y.val (by omega)]
    else if ys.isEmpty then x :: above a.tail
    else [y]

end DesignTokens.OrderKey.Fraction
