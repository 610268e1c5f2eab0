/-
The 62 digits of order keys: `0` to `9`, `A` to `Z`, `a` to `z`. Their values
ascend as their characters do, so texts compare as lists of digits do.
-/

namespace DesignTokens.OrderKey

/-- A digit, by its value. -/
abbrev Digit := Fin 62

namespace Digit

/-- The least digit, `0`. -/
def zero : Digit := ⟨0, by decide⟩

/-- The greatest digit, `z`. -/
def last : Digit := ⟨61, by decide⟩

/-- The character of a digit. -/
def char (d : Digit) : Char :=
  if d.val < 10 then Char.ofNat (48 + d.val)
  else if d.val < 36 then Char.ofNat (55 + d.val)
  else Char.ofNat (61 + d.val)

/-- The digit of a character. -/
def ofChar? (c : Char) : Option Digit :=
  let n := c.toNat
  if h : 48 ≤ n ∧ n ≤ 57 then some ⟨n - 48, by omega⟩
  else if h : 65 ≤ n ∧ n ≤ 90 then some ⟨n - 55, by omega⟩
  else if h : 97 ≤ n ∧ n ≤ 122 then some ⟨n - 61, by omega⟩
  else none

theorem ofChar?_char (d : Digit) : ofChar? d.char = some d := by
  revert d; decide

theorem char_lt_char {a b : Digit} : a.char < b.char ↔ a < b := by
  revert a b; decide +kernel

end Digit

/-- The text of digits. -/
def Digit.text (ds : List Digit) : String := String.ofList (ds.map Digit.char)

/-- The digits of a text. -/
def Digit.ofText? (s : String) : Option (List Digit) := s.toList.mapM Digit.ofChar?

end DesignTokens.OrderKey
