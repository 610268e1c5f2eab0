/-
The integer part of an order key: a head letter and as many digits as it says.
`a` has one digit, `b` two and so on to `z` with 26; `Z` has one, `Y` two and so
on to `A` with 26. Under comparison as lists of digits `succ?` is the next
integer part and `pred?` the one before: the digits count up like an odometer,
and where they overflow the head moves on and brings its own number of digits.
-/
import DesignTokens.OrderKey.Digit

namespace DesignTokens.OrderKey

/-- A head letter and the digits behind it. -/
structure IntegerPart where
  head : Digit
  digits : List Digit
  deriving DecidableEq, Repr

namespace IntegerPart

/-- The heads `A` and `a`; a head is a letter. -/
def firstUpper : Digit := ⟨10, by decide⟩

@[inherit_doc firstUpper]
def firstLower : Digit := ⟨36, by decide⟩

/-- The number of digits that a head letter stands before. -/
def digitCount (head : Digit) : Nat :=
  if head < firstLower then firstLower.val - head.val else head.val - firstLower.val + 1

/-- An integer part whose head is a letter with the right number of digits behind it. -/
def WellFormed (i : IntegerPart) : Prop :=
  firstUpper ≤ i.head ∧ i.digits.length = digitCount i.head

instance (i : IntegerPart) : Decidable i.WellFormed :=
  inferInstanceAs (Decidable (_ ∧ _))

/-- The head and the digits in one list. -/
def toDigits (i : IntegerPart) : List Digit := i.head :: i.digits

/-- The text of an integer part. -/
def text (i : IntegerPart) : String := Digit.text i.toDigits

/-- The integer part of a new head, with one digit repeated. -/
def fill (head : Digit) (d : Digit) : IntegerPart := ⟨head, List.replicate (digitCount head) d⟩

/-- The least integer part, `A` and 26 zeros. -/
def least : IntegerPart := fill firstUpper Digit.zero

/-- The integer part of the first key, `a0`. -/
def first : IntegerPart := fill firstLower Digit.zero

/-- Counts digits up by one; `none` when they overflow. -/
def countUp? : List Digit → Option (List Digit)
  | [] => none
  | d :: ds =>
    match countUp? ds with
    | some ds' => some (d :: ds')
    | none =>
      if h : d.val + 1 < 62 then some (⟨d.val + 1, h⟩ :: ds.map fun _ => Digit.zero) else none

/-- Counts digits down by one; `none` when they are all zero. -/
def countDown? : List Digit → Option (List Digit)
  | [] => none
  | d :: ds =>
    match countDown? ds with
    | some ds' => some (d :: ds')
    | none =>
      if 0 < d.val then some (⟨d.val - 1, by omega⟩ :: ds.map fun _ => Digit.last) else none

/-- The next integer part; there is none behind `z` and 26 times `z`. -/
def succ? (i : IntegerPart) : Option IntegerPart :=
  match countUp? i.digits with
  | some digits => some ⟨i.head, digits⟩
  | none => if h : i.head.val + 1 < 62 then some (fill ⟨i.head.val + 1, h⟩ Digit.zero) else none

/-- The integer part before; there is none before `A` and 26 zeros. -/
def pred? (i : IntegerPart) : Option IntegerPart :=
  match countDown? i.digits with
  | some digits => some ⟨i.head, digits⟩
  | none =>
    if firstUpper < i.head then some (fill ⟨i.head.val - 1, by omega⟩ Digit.last) else none

end IntegerPart

end DesignTokens.OrderKey
