/-
Numbers in decimal text: how a literal of a document is read.

A literal is a sign, whole digits without a leading zero, and optionally a
fraction and a power of ten (`Literal.ofChars?`). Its value is found in double
arithmetic, not by exact rounding: as many leading digits as fit an unsigned
64-bit number make a significand (`takeDigits`), every other digit only moves
the point, the significand is taken to the nearest double, and that is
multiplied or divided by the double nearest to a power of ten (`scale`). The
result may differ from the nearest double in the last place. A literal beyond
the doubles is not a number; one below them is zero.
-/
import DesignTokens.Number.Basic

namespace DesignTokens.Decimal

/-- A number as it is written. -/
structure Literal where
  negative : Bool
  /-- The digits before the point; there is at least one. -/
  whole : List Nat
  /-- The digits after the point, if there is a point. -/
  fraction : Option (List Nat)
  /-- The power of ten, if one is written. -/
  exponent : Option Int
  deriving DecidableEq, Repr

/-- The value of a decimal digit. -/
def digit? (c : Char) : Option Nat :=
  if '0' ≤ c ∧ c ≤ '9' then some (c.toNat - '0'.toNat) else none

/-- The digits at the front of a text, and what follows them. -/
def digits : List Char → List Nat × List Char
  | [] => ([], [])
  | c :: cs =>
    match digit? c with
    | some d => let (ds, rest) := digits cs; (d :: ds, rest)
    | none => ([], c :: cs)

/-- The whole number that decimal digits write. -/
def natOfDigits (ds : List Nat) : Nat := ds.foldl (fun n d => 10 * n + d) 0

/-- Reads whole digits: `0`, or digits that do not start with `0`. -/
def whole? (cs : List Char) : Option (List Nat × List Char) :=
  match digits cs with
  | ([], _) => none
  | (0 :: _ :: _, _) => none
  | (ds, rest) => some (ds, rest)

/-- Reads an optional fraction: a point needs a digit behind it. -/
def fraction? : List Char → Option (Option (List Nat) × List Char)
  | '.' :: cs =>
    match digits cs with
    | ([], _) => none
    | (ds, rest) => some (some ds, rest)
  | cs => some (none, cs)

/-- Reads the digits of a power of ten, which end the literal. -/
def exponentDigits? (cs : List Char) : Option Nat :=
  match digits cs with
  | ([], _) => none
  | (ds, []) => some (natOfDigits ds)
  | (_, _ :: _) => none

/-- Reads an optional power of ten, which ends the literal. -/
def exponent? : List Char → Option (Option Int)
  | [] => some none
  | e :: cs =>
    if e = 'e' ∨ e = 'E' then
      match cs with
      | '-' :: cs => (exponentDigits? cs).map fun n => some (-(n : Int))
      | '+' :: cs => (exponentDigits? cs).map fun n => some (n : Int)
      | cs => (exponentDigits? cs).map fun n => some (n : Int)
    else none

/-- Reads a literal that is the whole text. -/
def Literal.ofChars? (cs : List Char) : Option Literal := do
  let (negative, cs) := match cs with
    | '-' :: cs => (true, cs)
    | cs => (false, cs)
  let (whole, cs) ← whole? cs
  let (fraction, cs) ← fraction? cs
  let exponent ← exponent? cs
  return ⟨negative, whole, fraction, exponent⟩

/-- Significands stay below this bound. -/
def significandBound : Nat := Nat.pow 2 64

/-- Appends digits to a significand while it stays in bounds; gives back the digits left over. -/
def takeDigits (significand : Nat) : List Nat → Nat × List Nat
  | [] => (significand, [])
  | d :: ds =>
    let next := 10 * significand + d
    if next < significandBound then takeDigits next ds else (significand, d :: ds)

/-- The greatest power of ten that is a double. -/
def maxPower : Nat := 308

/-- The double nearest to a power of ten. -/
def powerOfTen (k : Nat) : Option Binary64 := Binary64.ofRatio false (Nat.pow 10 k) 1

/--
Multiplies or divides by a power of ten, in steps that are doubles themselves.
There is no result when the product leaves the doubles.
-/
def scale (x : Binary64) (e : Int) : Option Binary64 :=
  if e.natAbs ≤ maxPower then do
    let p ← powerOfTen e.natAbs
    if 0 ≤ e then x.mul p else x.div p
  else if x.isZero then some x
  else if 0 ≤ e then none
  else do
    let p ← powerOfTen maxPower
    let y ← x.div p
    scale y (e + maxPower)
termination_by e.natAbs
decreasing_by simp only [maxPower] at *; omega

/-- The double that a significand and a power of ten stand for. -/
def ofParts (negative : Bool) (significand : Nat) (e : Int) : Option Binary64 := do
  let x ← Binary64.ofRatio negative significand 1
  scale x e

/-- An integer literal stays an integer if it fits 64 bits and is not a negative zero. -/
def ofInteger? (negative : Bool) (n : Nat) : Option Number :=
  if !negative then some (.integer n)
  else if n = 0 ∨ Nat.pow 2 63 < n then (Binary64.ofRatio true n 1).map .double
  else some (.integer (-(n : Int)))

/-- The number a literal stands for. -/
def Literal.value? (l : Literal) : Option Number :=
  let (significand, dropped) := takeDigits 0 l.whole
  match l.fraction, l.exponent, dropped with
  | none, none, [] => ofInteger? l.negative significand
  | fraction, exponent, dropped =>
    let fraction := fraction.getD []
    let (significand, unread) := takeDigits significand fraction
    let point : Int := (dropped.length : Int) - ((fraction.length : Int) - (unread.length : Int))
    (ofParts l.negative significand (point + exponent.getD 0)).map .double

end DesignTokens.Decimal

namespace DesignTokens

/-- Reads a number literal that is the whole text. -/
def Number.ofChars? (cs : List Char) : Option Number := do
  let l ← Decimal.Literal.ofChars? cs
  l.value?

end DesignTokens
