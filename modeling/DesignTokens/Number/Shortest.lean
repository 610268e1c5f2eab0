/-
The shortest decimal text of a double: the fewest significant digits that read
back as the number, and of those the digits nearest to it, a tie going to the
even last digit.

The reals that round to `m * 2 ^ e` form an interval, whose ends belong to it
iff `m` is even; below a power of two it is narrower. For one digit, two
digits and so on, the value's two neighbours on that decimal grid are tried in
exact arithmetic; the first grid with a hit wins (`shortest`). Seventeen digits
always suffice.

The digits are placed in positional notation when the leading one stands
between the fifth place after the point and the sixteenth before it, else with
a power of ten (`Binary64.text`).
-/
import DesignTokens.Number.Basic

namespace DesignTokens.Shortest

/-- A decimal number `digits * 10 ^ exponent`. -/
structure Decimal where
  digits : Nat
  exponent : Int
  deriving DecidableEq, Repr

/-- The digits of a natural number, as text. -/
def natText (n : Nat) : List Char := Nat.toDigits 10 n

/-- The power of ten of the leading digit of `n / d`, for fractions above `10 ^ -330`. -/
def leadingPower (n d : Nat) : Int :=
  ((natText (n * Nat.pow 10 330 / d)).length : Int) - 331

/-- A positive number and the reals around it that round to it. -/
structure Target where
  /-- Four times the numerator over `den`: the number itself. -/
  value : Nat
  /-- The lower and the upper end of the interval, on the same scale. -/
  low : Nat
  high : Nat
  den : Nat
  /-- Whether the ends belong to the interval. -/
  closed : Bool

/-- The target of a mantissa and an exponent. -/
def Target.of (m : Nat) (e : Int) : Target :=
  let narrow := m == Binary64.normalMantissa && Binary64.minExponent < e
  let up := Binary64.shiftUp 1 e
  { value := 4 * m * up
    low := (4 * m - (if narrow then 1 else 2)) * up
    high := (4 * m + 2) * up
    den := 4 * Binary64.shiftUp 1 (-e)
    closed := m % 2 == 0 }

/-- `10 ^ q` as a fraction. -/
def powerOfTen (q : Int) : Nat × Nat := (Nat.pow 10 q.toNat, Nat.pow 10 (-q).toNat)

/-- Whether a decimal number lies in the interval. -/
def Target.contains (t : Target) (x : Decimal) : Bool :=
  let (up, down) := powerOfTen x.exponent
  let point := x.digits * up * t.den
  if t.closed then t.low * down ≤ point && point ≤ t.high * down
  else t.low * down < point && point < t.high * down

/-- The candidate on the grid of `10 ^ q`: a neighbour of the value that lies in the interval. -/
def Target.onGrid (t : Target) (q : Int) : Option Decimal :=
  let (up, down) := powerOfTen q
  let n := t.value * down
  let d := t.den * up
  let below : Decimal := ⟨n / d, q⟩
  let above : Decimal := ⟨n / d + 1, q⟩
  let twice := 2 * (n % d)
  match t.contains below, t.contains above with
  | true, true =>
    if twice < d then some below
    else if d < twice then some above
    else if n / d % 2 = 0 then some below else some above
  | true, false => some below
  | false, true => some above
  | false, false => none

/-- The first candidate among grids that get finer, at most `fuel` of them. -/
def Target.search (t : Target) : Nat → Int → Option Decimal
  | 0, _ => none
  | fuel + 1, q => (t.onGrid q).orElse fun _ => t.search fuel (q - 1)

/-- The fewest digits that read back as the number. -/
def shortest (m : Nat) (e : Int) : Decimal :=
  let t := Target.of m e
  (t.search 17 (leadingPower t.value t.den)).getD ⟨0, 0⟩

/-- The digits without the zeros at their end, and the power of ten of the first one. -/
def Decimal.significant (x : Decimal) : List Char × Int :=
  let ds := natText x.digits
  ((ds.reverse.dropWhile (· = '0')).reverse, (ds.length : Int) - 1 + x.exponent)

/-- The powers of ten of the leading digit that are written in positional notation. -/
def positionalPowers : Int × Int := (-5, 15)

/-- Digits with a point: at least one digit stands on each side of it. -/
def positional (ds : List Char) (power : Int) : List Char :=
  if power < 0 then
    '0' :: '.' :: (List.replicate (-power - 1).toNat '0' ++ ds)
  else
    let before := power.toNat + 1
    let whole := ds.take before ++ List.replicate (before - ds.length) '0'
    let fraction := ds.drop before
    whole ++ '.' :: (if fraction.isEmpty then ['0'] else fraction)

/-- Digits with a power of ten: one digit before the point, no point after a single digit. -/
def scientific (ds : List Char) (power : Int) : List Char :=
  let sign := if power < 0 then '-' else '+'
  let mantissa := match ds with
    | [] => []
    | [d] => [d]
    | d :: rest => d :: '.' :: rest
  mantissa ++ 'e' :: sign :: natText power.natAbs

end DesignTokens.Shortest

namespace DesignTokens

/-- The text of a double: the shortest that reads back. -/
def Binary64.text (x : Binary64) : List Char :=
  let magnitude :=
    if x.isZero then ['0', '.', '0']
    else
      let (ds, power) := (Shortest.shortest x.mantissa x.exponent).significant
      let (least, greatest) := Shortest.positionalPowers
      if least ≤ power ∧ power ≤ greatest then Shortest.positional ds power
      else Shortest.scientific ds power
  if x.negative then '-' :: magnitude else magnitude

/-- The text of a number. -/
def Number.text : Number → String
  | .integer n => if n < 0 then String.ofList ('-' :: Shortest.natText n.natAbs)
      else String.ofList (Shortest.natText n.natAbs)
  | .double x => String.ofList x.text

end DesignTokens
