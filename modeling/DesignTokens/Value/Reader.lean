/-
Reading token values from JSON. A string that starts with a brace is an alias
or an error, whatever the type; every other value must have the shape of the
type (`Literal.ofJson`). Members that a shape does not name are ignored.

The first thing wrong is the error: an object's members are looked at in the
order of the shape, not of the object. `ValueError` names the causes.
-/
import DesignTokens.Json.Basic
import DesignTokens.Value.Literal

namespace DesignTokens

/-- Why a value is not of its type. -/
inductive ValueError where
  /-- A text with a leading brace that is no reference. -/
  | malformedReference (text : String)
  /-- A literal without any type. -/
  | untyped
  | notAnObject (what : String)
  | missing (key : String)
  /-- The cause lies in a member's value. -/
  | inMember (key : String) (cause : ValueError)
  | notANumber (what : String)
  | numberExpected
  | outOfRange (what : String) (least greatest : Nat)
  | notAKeyword (what : String) (words : List String)
  | notANonEmptyArray (key : String)
  | componentNotANumber
  | malformedHex
  | fontFamilyExpected
  | fontWeightNotWhole
  | curveExpected
  | notABoolean (key : String)
  | emptyShadow
  | stopsExpected
  deriving DecidableEq, Repr

/-- What a reader is told. -/
def ValueError.message : ValueError → String
  | malformedReference text => "malformed reference `" ++ text ++ "`"
  | untyped => "type cannot be determined: no $type on the token or its groups"
  | notAnObject what => what ++ " must be an object"
  | missing key => "missing `" ++ key ++ "`"
  | inMember key cause => "`" ++ key ++ "`: " ++ cause.message
  | notANumber what => what ++ " must be a number"
  | numberExpected => "expected a number"
  | outOfRange what least greatest =>
    what ++ " must be between " ++ toString least ++ " and " ++ toString greatest
  | notAKeyword what words => what ++ " must be one of " ++ String.intercalate ", " words
  | notANonEmptyArray key => "`" ++ key ++ "` must be a non-empty array"
  | componentNotANumber => "`components` must hold numbers"
  | malformedHex => "`hex` must look like #rrggbb"
  | fontFamilyExpected => "expected a font name or a non-empty list of names"
  | fontWeightNotWhole => "font weight must be a whole number"
  | curveExpected => "expected an array of four numbers"
  | notABoolean key => "`" ++ key ++ "` must be a boolean"
  | emptyShadow => "shadow list must not be empty"
  | stopsExpected => "expected a non-empty array of gradient stops"

/-- What a reader of values gives. -/
abbrev Checked := Except ValueError

/-! ## Aliases -/

/-- Whether a text claims to be a reference. -/
def Alias.isBraced (text : String) : Bool :=
  match text.toList with
  | c :: _ => c = '{'
  | [] => false

/-- Reads a text that claims to be a reference: names between single dots, none empty. -/
def Alias.ofBraced (text : String) : Checked Alias :=
  match Alias.parse? text with
  | some (.path dotted) =>
    if (Alias.segmentsOf dotted).any String.isEmpty then .error (.malformedReference text)
    else .ok (.path dotted)
  | _ => .error (.malformedReference text)

/-- The alias that a value is, if it is a string with a leading brace. -/
def Alias.ofJson? : Json → Checked (Option Alias)
  | .string text =>
    if Alias.isBraced text then (Alias.ofBraced text).map some else .ok none
  | _ => .ok none

/-! ## Members -/

/-- The members of a value that must be an object. -/
def Json.membersOf (what : String) (raw : Json) : Checked Members :=
  match raw.members? with
  | some ms => .ok ms
  | none => .error (.notAnObject what)

/-- A member that must be present. -/
def Json.required (ms : Members) (key : String) : Checked Json :=
  match Dict.get? ms key with
  | some raw => .ok raw
  | none => .error (.missing key)

/-- A field's value: an alias, or what `read` makes of it. -/
def Field.ofJson {α : Type} (read : Json → Checked α) (raw : Json) : Checked (Field α) := do
  match ← Alias.ofJson? raw with
  | some ref => return .aliasTo ref
  | none => return .value (← read raw)

/-- Moves an error into a member. -/
def Checked.inMember {α : Type} (key : String) : Checked α → Checked α
  | .ok a => .ok a
  | .error e => .error (.inMember key e)

/-- A field that must be present. -/
def Field.required {α : Type} (ms : Members) (key : String) (read : Json → Checked α) :
    Checked (Field α) := do
  let raw ← Json.required ms key
  (Field.ofJson read raw).inMember key

/-- A field that may be absent. -/
def Field.optional {α : Type} (ms : Members) (key : String) (read : Json → Checked α) :
    Checked (Option (Field α)) :=
  match Dict.get? ms key with
  | none => .ok none
  | some raw => ((Field.ofJson read raw).inMember key).map some

/-! ## Plain shapes -/

/-- A number. -/
def Number.ofJson : Json → Checked Number
  | .number n => .ok n
  | _ => .error .numberExpected

/-- A number under a name. -/
def Number.named (what : String) : Json → Checked Number
  | .number n => .ok n
  | _ => .error (.notANumber what)

/-- A number between two bounds, both included. -/
def Number.within (what : String) (least greatest : Nat) (raw : Json) : Checked Number := do
  let n ← Number.named what raw
  if n.isBetween least greatest then return n else throw (.outOfRange what least greatest)

/-- One of a set of words. -/
def Keyword.ofJson {α : Type} [Keyword α] (what : String) (raw : Json) : Checked α :=
  match raw.string?.bind Keyword.ofWord? with
  | some a => .ok a
  | none => .error (.notAKeyword what (Keyword.words α))

/-- The items of an array that holds at least one. -/
def Json.nonEmptyItems (key : String) : Json → Checked (List Json)
  | .array (x :: xs) => .ok (x :: xs)
  | _ => .error (.notANonEmptyArray key)

/-- One number among the components of a color. -/
def Color.componentOfJson : Json → Checked Number
  | .number n => .ok n
  | _ => .error .componentNotANumber

/-- Whether a character is a hexadecimal digit. -/
def Color.isHexDigit (c : Char) : Bool :=
  ('0' ≤ c && c ≤ '9') || ('a' ≤ c && c ≤ 'f') || ('A' ≤ c && c ≤ 'F')

/-- Whether a text is `#` and six hexadecimal digits. -/
def Color.isHex (s : String) : Bool :=
  match s.toList with
  | '#' :: ds => ds.length = 6 && ds.all Color.isHexDigit
  | _ => false

/-- A color in six hexadecimal digits. -/
def Color.hexOfJson : Json → Checked String
  | .string s => if Color.isHex s then .ok s else .error .malformedHex
  | _ => .error .malformedHex

/-- A color: its space and components must be given, opacity and fallback may be. -/
def Color.ofJson (raw : Json) : Checked Color := do
  let ms ← Json.membersOf "color" raw
  let colorSpace ← Keyword.ofJson "`colorSpace`" (← Json.required ms "colorSpace")
  let items ← Json.nonEmptyItems "components" (← Json.required ms "components")
  let components ← items.mapM Color.componentOfJson
  let alpha ← match Dict.get? ms "alpha" with
    | none => pure none
    | some raw => do pure (some (← Number.within "`alpha`" 0 1 raw))
  let hex ← match Dict.get? ms "hex" with
    | none => pure none
    | some raw => do pure (some (← Color.hexOfJson raw))
  return { colorSpace, components, alpha, hex }

/-- A length: a number and one of the units. -/
def Dimension.ofJson (raw : Json) : Checked Dimension := do
  let ms ← Json.membersOf "dimension" raw
  let value ← Number.named "`value`" (← Json.required ms "value")
  let unit ← Keyword.ofJson "`unit`" (← Json.required ms "unit")
  return { value, unit }

/-- A time: a number and one of the units. -/
def Duration.ofJson (raw : Json) : Checked Duration := do
  let ms ← Json.membersOf "duration" raw
  let value ← Number.named "`value`" (← Json.required ms "value")
  let unit ← Keyword.ofJson "`unit`" (← Json.required ms "unit")
  return { value, unit }

/-- A font name is a string with at least one character. -/
def FontFamily.nameOfJson : Json → Checked String
  | .string name => if name.isEmpty then .error .fontFamilyExpected else .ok name
  | _ => .error .fontFamilyExpected

/-- One font name, or a list of at least one. -/
def FontFamily.ofJson : Json → Checked FontFamily
  | .string name => do return .one (← FontFamily.nameOfJson (.string name))
  | .array (x :: xs) => do return .many (← (x :: xs).mapM FontFamily.nameOfJson)
  | _ => .error .fontFamilyExpected

/-- A font weight is a whole number from 1 to 1000. -/
def Number.fontWeightOfJson (raw : Json) : Checked Number := do
  let n ← Number.within "font weight" 1 1000 raw
  if n.isWhole then return n else throw .fontWeightNotWhole

/-- Four numbers; the first and the third lie between zero and one. -/
def CubicBezier.ofJson : Json → Checked CubicBezier
  | .array [a, b, c, d] => do
    let x1 ← Number.within "x1" 0 1 a
    let y1 ← Number.ofJson b
    let x2 ← Number.within "x2" 0 1 c
    let y2 ← Number.ofJson d
    return { x1, y1, x2, y2 }
  | _ => .error .curveExpected

/-- A named style, or dashes with their line ends. -/
def StrokeStyle.ofJson (raw : Json) : Checked StrokeStyle :=
  match raw with
  | .string _ => do return .keyword (← Keyword.ofJson "stroke style" raw)
  | _ => do
    let ms ← Json.membersOf "stroke style" raw
    let items ← Json.nonEmptyItems "dashArray" (← Json.required ms "dashArray")
    let dashArray ← items.mapM fun item =>
      (Field.ofJson Dimension.ofJson item).inMember "dashArray"
    let lineCap ← Keyword.ofJson "`lineCap`" (← Json.required ms "lineCap")
    return .dashed dashArray lineCap

/-! ## Composite shapes -/

/-- Whether a shadow lies inside its box. -/
def Shadow.insetOfJson (ms : Members) : Checked (Option Bool) :=
  match Dict.get? ms "inset" with
  | none => .ok none
  | some (.bool b) => .ok (some b)
  | some _ => .error (.notABoolean "inset")

/-- One shadow layer. The `inset` member is checked before the fields. -/
def Shadow.ofJson (raw : Json) : Checked Shadow := do
  let ms ← Json.membersOf "shadow" raw
  let inset ← Shadow.insetOfJson ms
  let color ← Field.required ms "color" Color.ofJson
  let offsetX ← Field.required ms "offsetX" Dimension.ofJson
  let offsetY ← Field.required ms "offsetY" Dimension.ofJson
  let blur ← Field.required ms "blur" Dimension.ofJson
  let spread ← Field.optional ms "spread" Dimension.ofJson
  return { color, offsetX, offsetY, blur, spread, inset }

/-- One layer, or a list of at least one. -/
def Shadow.layersOfJson : Json → Checked (OneOrList Shadow)
  | .array [] => .error .emptyShadow
  | .array (x :: xs) => do return .many (← (x :: xs).mapM Shadow.ofJson)
  | raw => do return .one (← Shadow.ofJson raw)

/-- A border; every field must be given. -/
def Border.ofJson (raw : Json) : Checked Border := do
  let ms ← Json.membersOf "border" raw
  let color ← Field.required ms "color" Color.ofJson
  let width ← Field.required ms "width" Dimension.ofJson
  let style ← Field.required ms "style" StrokeStyle.ofJson
  return { color, width, style }

/-- A text style; every field must be given. -/
def Typography.ofJson (raw : Json) : Checked Typography := do
  let ms ← Json.membersOf "typography" raw
  let fontFamily ← Field.required ms "fontFamily" FontFamily.ofJson
  let fontSize ← Field.required ms "fontSize" Dimension.ofJson
  let fontWeight ← Field.required ms "fontWeight" Number.fontWeightOfJson
  let lineHeight ← Field.required ms "lineHeight" Number.ofJson
  let letterSpacing ← Field.required ms "letterSpacing" Dimension.ofJson
  return { fontFamily, fontSize, fontWeight, lineHeight, letterSpacing }

/-- A transition; every field must be given. -/
def Transition.ofJson (raw : Json) : Checked Transition := do
  let ms ← Json.membersOf "transition" raw
  let duration ← Field.required ms "duration" Duration.ofJson
  let delay ← Field.required ms "delay" Duration.ofJson
  let timingFunction ← Field.required ms "timingFunction" CubicBezier.ofJson
  return { duration, delay, timingFunction }

/-- A gradient stop; its position lies between zero and one. -/
def GradientStop.ofJson (raw : Json) : Checked GradientStop := do
  let ms ← Json.membersOf "gradient stop" raw
  let color ← Field.required ms "color" Color.ofJson
  let position ← Field.required ms "position" (Number.within "position" 0 1)
  return { color, position }

/-- A list of at least one stop. -/
def GradientStop.listOfJson : Json → Checked (List GradientStop)
  | .array (x :: xs) => (x :: xs).mapM GradientStop.ofJson
  | _ => .error .stopsExpected

/-! ## Whole values -/

/-- Reads a literal of a type. -/
def Literal.ofJson (type : TokenType) (raw : Json) : Checked Literal :=
  match type with
  | .color => do return .color (← Color.ofJson raw)
  | .dimension => do return .dimension (← Dimension.ofJson raw)
  | .duration => do return .duration (← Duration.ofJson raw)
  | .number => do return .number (← Number.ofJson raw)
  | .fontFamily => do return .fontFamily (← FontFamily.ofJson raw)
  | .fontWeight => do return .fontWeight (← Number.fontWeightOfJson raw)
  | .cubicBezier => do return .cubicBezier (← CubicBezier.ofJson raw)
  | .transition => do return .transition (← Transition.ofJson raw)
  | .strokeStyle => do return .strokeStyle (← StrokeStyle.ofJson raw)
  | .shadow => do return .shadow (← Shadow.layersOfJson raw)
  | .border => do return .border (← Border.ofJson raw)
  | .typography => do return .typography (← Typography.ofJson raw)
  | .gradient => do return .gradient (← GradientStop.listOfJson raw)

/-- Reads a value: an alias whatever the type, or a literal of the declared or inherited type. -/
def TokenValue.ofJson (type : Option TokenType) (raw : Json) : Checked TokenValue := do
  match ← Alias.ofJson? raw with
  | some ref => return .aliasTo ref
  | none =>
    match type with
    | none => throw .untyped
    | some t => return .literal (← Literal.ofJson t raw)

end DesignTokens
