/-
Order keys: texts that order siblings, such that there is always room for
another one between two. A key is an integer part and a fraction behind it;
keys compare as texts do.

`ofBound` accepts the keys that may stand as bounds: an integer part with all
its digits and a fraction that does not end in zero, but not the least integer
part alone, below which there would be no room. `between?` finds a key between
two bounds, either of which may be left open; it prefers a whole integer part.
-/
import DesignTokens.OrderKey.IntegerPart
import DesignTokens.OrderKey.Fraction

namespace DesignTokens

/-- An integer part and a fraction. -/
structure OrderKey where
  integer : OrderKey.IntegerPart
  fraction : List OrderKey.Digit
  deriving DecidableEq, Repr

/-- Why there is no key. -/
inductive KeyError where
  /-- A bound is not a valid key. -/
  | invalid (key : String)
  /-- The lower bound is not below the upper one. -/
  | disordered (lower upper : String)
  /-- There is no integer part beyond a bound. -/
  | noRoom
  deriving DecidableEq, Repr

/-- What a reader is told. -/
def KeyError.message : KeyError → String
  | .invalid key => "invalid order key `" ++ key ++ "`"
  | .disordered lower upper => "order key `" ++ lower ++ "` is not below `" ++ upper ++ "`"
  | .noRoom => "order key space exhausted"

namespace OrderKey

/-- All digits of a key in one list. -/
def toDigits (k : OrderKey) : List Digit := k.integer.toDigits ++ k.fraction

/-- The text of a key. -/
def text (k : OrderKey) : String := Digit.text k.toDigits

instance : LT OrderKey := ⟨fun a b => a.toDigits < b.toDigits⟩

instance (a b : OrderKey) : Decidable (a < b) :=
  inferInstanceAs (Decidable (a.toDigits < b.toDigits))

/-- The key with no fraction. -/
def ofInteger (i : IntegerPart) : OrderKey := ⟨i, []⟩

/-- The key of an only child. -/
def first : OrderKey := ofInteger .first

/-- Splits digits into an integer part with all its digits and the rest. -/
def ofDigits? : List Digit → Option OrderKey
  | [] => none
  | head :: ds =>
    let n := IntegerPart.digitCount head
    if IntegerPart.firstUpper ≤ head ∧ n ≤ ds.length then some ⟨⟨head, ds.take n⟩, ds.drop n⟩
    else none

/-- A key that may stand as a bound. -/
def Valid (k : OrderKey) : Prop :=
  k.integer.WellFormed ∧ k.fraction.getLast? ≠ some Digit.zero ∧ k ≠ ofInteger .least

instance (k : OrderKey) : Decidable k.Valid := inferInstanceAs (Decidable (_ ∧ _ ∧ _))

/-- Reads a valid key. -/
def ofText? (s : String) : Option OrderKey :=
  match (Digit.ofText? s).bind ofDigits? with
  | some k => if k.Valid then some k else none
  | none => none

/-- Reads a key that is given as a bound. -/
def ofBound (s : String) : Except KeyError OrderKey :=
  match ofText? s with
  | some k => .ok k
  | none => .error (.invalid s)

/-- A key between two bounds that are valid keys. -/
def between? : Option OrderKey → Option OrderKey → Except KeyError OrderKey
  | none, none => .ok first
  | none, some b =>
    if b.integer = .least then .ok ⟨b.integer, Fraction.between [] b.fraction⟩
    else if b.fraction ≠ [] then .ok (ofInteger b.integer)
    else
      match b.integer.pred? with
      | some i => .ok (ofInteger i)
      | none => .error .noRoom
  | some a, none =>
    match a.integer.succ? with
    | some i => .ok (ofInteger i)
    | none => .ok ⟨a.integer, Fraction.above a.fraction⟩
  | some a, some b =>
    if ¬ a < b then .error (.disordered a.text b.text)
    else if a.integer = b.integer then .ok ⟨a.integer, Fraction.between a.fraction b.fraction⟩
    else
      match a.integer.succ? with
      | none => .error .noRoom
      | some i =>
        if ofInteger i < b then .ok (ofInteger i)
        else .ok ⟨a.integer, Fraction.above a.fraction⟩

/-- Reads a bound, if there is one. -/
def ofOpenBound : Option String → Except KeyError (Option OrderKey)
  | none => .ok none
  | some s => (ofBound s).map some

/-- A key strictly between two bounds; an absent bound leaves its side open. -/
def keyWithin (lower upper : Option String) : Except KeyError String := do
  let a ← ofOpenBound lower
  let b ← ofOpenBound upper
  let k ← between? a b
  return k.text

end OrderKey

end DesignTokens
