/-
Following a path into a JSON value. An object is entered by a member's name, an
array by an index in canonical decimal form; the first step that cannot be
taken is the error.
-/
import DesignTokens.Json.Basic
import DesignTokens.Pointer.Basic

namespace DesignTokens

/-- Why a pointer or a reference leads nowhere. -/
inductive PointerError where
  /-- The value has no such part; the path runs up to the step that failed. -/
  | notFound (path : Pointer.Path)
  /-- An array was to be entered by a step that is not an index. -/
  | notAnIndex (step : String)
  /-- A pointer without its leading slash. -/
  | noSlash (text : String)
  /-- A fragment without its leading `#`. -/
  | noHash (reference : String)
  /-- A reference into another document. -/
  | otherDocument (reference : String)
  /-- Percent-escapes that do not give UTF-8 text. -/
  | notUtf8 (reference : String)
  deriving DecidableEq, Repr

/-- What a reader is told. -/
def PointerError.message : PointerError → String
  | .notFound path => "pointer target not found: " ++ Pointer.format path
  | .notAnIndex step => "invalid array index `" ++ step ++ "`"
  | .noSlash text => "pointer must start with `/`: " ++ text
  | .noHash reference => "fragment pointer must start with `#`: " ++ reference
  | .otherDocument reference => "external reference `" ++ reference ++ "` cannot be followed"
  | .notUtf8 reference => "invalid percent-encoding in `" ++ reference ++ "`"

namespace Pointer

/-- Whether a character is a decimal digit. -/
def isDigit (c : Char) : Bool := '0' ≤ c && c ≤ '9'

/-- The number that decimal digits write. -/
def natOfDigits (cs : List Char) : Nat :=
  cs.foldl (fun n c => 10 * n + (c.toNat - '0'.toNat)) 0

/-- Indices stay below this bound. -/
def indexBound : Nat := Nat.pow 2 64

/-- The index that a step names: digits without a leading zero, within 64 bits. -/
def index? (step : String) : Option Nat :=
  match step.toList with
  | [] => none
  | c :: cs =>
    if (c :: cs).all isDigit && (cs.isEmpty || c ≠ '0') then
      let n := natOfDigits (c :: cs)
      if n < indexBound then some n else none
    else none

/-- Follows a path from a value that lies at `walked`. -/
def findFrom (walked : Path) (v : Json) : Path → Except PointerError Json
  | [] => .ok v
  | step :: path =>
    match v with
    | .array items =>
      match index? step with
      | none => .error (.notAnIndex step)
      | some i =>
        match items[i]? with
        | none => .error (.notFound (walked ++ [step]))
        | some item => findFrom (walked ++ [step]) item path
    | .object members =>
      match Dict.get? members step with
      | none => .error (.notFound (walked ++ [step]))
      | some member => findFrom (walked ++ [step]) member path
    | _ => .error (.notFound (walked ++ [step]))

/-- The part of a value that a path leads to. -/
def find (v : Json) (path : Path) : Except PointerError Json := findFrom [] v path

/-- Checks that a text is a pointer. -/
def check (text : String) : Except PointerError Unit :=
  if isPointer text then .ok () else .error (.noSlash text)

end Pointer

end DesignTokens
