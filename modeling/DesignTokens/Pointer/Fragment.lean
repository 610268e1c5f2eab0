/-
References by fragment: `#` and a JSON pointer, in which any byte may stand as
a percent sign and two hexadecimal digits. A text before the `#` names another
document, which is never followed.

How percent-escapes are read is a parameter of `ofFragmentBy` and `atFragmentBy`,
for that is the work of an external package, `urlencoding`. The decoder of this
library, `decodedText?`, stands for it. What the package is documented to do
leaves no choice: every function that does it is this one (`PercentDecoder.eq`,
among the proofs on references).

A local reference is an object that holds one member, `$ref`, with a string.
-/
import DesignTokens.Pointer.Find

namespace DesignTokens.Pointer

/-- The value of a hexadecimal digit, given as a byte. -/
def hexValue? (b : UInt8) : Option UInt8 :=
  if 48 ≤ b ∧ b ≤ 57 then some (b - 48)
  else if 97 ≤ b ∧ b ≤ 102 then some (b - 87)
  else if 65 ≤ b ∧ b ≤ 70 then some (b - 55)
  else none

/-- The bytes of a text in UTF-8. -/
def utf8 (cs : List Char) : List UInt8 := cs.flatMap String.utf8EncodeChar

/-- The percent sign as a byte. -/
def percent : UInt8 := 37

/--
Bytes with each percent sign and two hexadecimal digits replaced by the byte
they write, in one pass from the left; a percent sign before anything else
stands for itself.
-/
def percentDecode : List UInt8 → List UInt8
  | [] => []
  | [a] => [a]
  | [a, b] => [a, b]
  | a :: b :: c :: rest =>
    if a = percent then
      match hexValue? b, hexValue? c with
      | some high, some low => (16 * high + low) :: percentDecode rest
      | _, _ => a :: percentDecode (b :: c :: rest)
    else a :: percentDecode (b :: c :: rest)

/-- The text of UTF-8 bytes. -/
def text? (bytes : List UInt8) : Option String := String.fromUTF8? bytes.toByteArray

/-- A text with its percent-escapes read; there is none if the bytes are not UTF-8. -/
def decodedText? (text : String) : Option String := text? (percentDecode (utf8 text.toList))

/-- The path that a fragment reference names, with its percent-escapes read by `decode`. -/
def ofFragmentBy (decode : String → Option String) (reference : String) :
    Except PointerError Path :=
  match reference.toList with
  | [] => .error (.noHash reference)
  | '#' :: cs =>
    match decode (String.ofList cs) with
    | none => .error (.notUtf8 reference)
    | some decoded =>
      match check decoded with
      | .error e => .error e
      | .ok () => .ok (parse decoded)
  | _ => .error (.otherDocument reference)

/-- The part of a document that a fragment reference names, with its percent-escapes read by
`decode`. -/
def atFragmentBy (decode : String → Option String) (doc : Json) (reference : String) :
    Except PointerError Json :=
  match ofFragmentBy decode reference with
  | .error e => .error e
  | .ok path => find doc path

/-- The path that a fragment reference names. -/
def ofFragment : String → Except PointerError Path := ofFragmentBy decodedText?

/-- The part of a document that a fragment reference names. -/
def atFragment : Json → String → Except PointerError Json := atFragmentBy decodedText?

/-- What a reference leads to lies at the path that it names. -/
theorem exists_path_of_atFragment {doc v : Json} {reference : String}
    (h : atFragment doc reference = .ok v) :
    ∃ path, ofFragment reference = .ok path ∧ find doc path = .ok v := by
  rw [atFragment, atFragmentBy] at h
  split at h
  · cases h
  · next path hpath => exact ⟨path, hpath, h⟩

/-- The member that makes an object a reference. -/
def refKey : String := "$ref"

/-- The target of a local reference; no other value is one. -/
def reference? : Json → Option String
  | .object [(key, .string target)] => if key = refKey then some target else none
  | _ => none

end DesignTokens.Pointer
