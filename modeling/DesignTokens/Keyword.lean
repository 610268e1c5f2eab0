/-
Closed sets of words. A type of keywords lists its values in order and gives
each its word; a word is read by looking for the value that has it.
-/

namespace DesignTokens

/-- A type whose values are written as words. -/
class Keyword (α : Type) where
  /-- Every value, in the order in which they are listed to a reader. -/
  all : List α
  /-- The word of a value. -/
  word : α → String

namespace Keyword

variable {α : Type} [Keyword α]

/-- The value that a word stands for. -/
def ofWord? (s : String) : Option α := (all : List α).find? fun a => word a = s

/-- Every word, in order. -/
def words (α : Type) [Keyword α] : List String := (all : List α).map word

end Keyword

/-- Color spaces of the `colorSpace` member. -/
inductive ColorSpace where
  | srgb | srgbLinear | hsl | hwb | lab | lch | oklab | oklch
  | displayP3 | a98Rgb | prophotoRgb | rec2020 | xyzD65 | xyzD50
  deriving DecidableEq, Repr

instance : Keyword ColorSpace where
  all := [.srgb, .srgbLinear, .hsl, .hwb, .lab, .lch, .oklab, .oklch,
    .displayP3, .a98Rgb, .prophotoRgb, .rec2020, .xyzD65, .xyzD50]
  word
    | .srgb => "srgb"
    | .srgbLinear => "srgb-linear"
    | .hsl => "hsl"
    | .hwb => "hwb"
    | .lab => "lab"
    | .lch => "lch"
    | .oklab => "oklab"
    | .oklch => "oklch"
    | .displayP3 => "display-p3"
    | .a98Rgb => "a98-rgb"
    | .prophotoRgb => "prophoto-rgb"
    | .rec2020 => "rec2020"
    | .xyzD65 => "xyz-d65"
    | .xyzD50 => "xyz-d50"

/-- Units of a dimension. -/
inductive DimensionUnit where
  | px | rem
  deriving DecidableEq, Repr

instance : Keyword DimensionUnit where
  all := [.px, .rem]
  word
    | .px => "px"
    | .rem => "rem"

/-- Units of a duration. -/
inductive DurationUnit where
  | ms | s
  deriving DecidableEq, Repr

instance : Keyword DurationUnit where
  all := [.ms, .s]
  word
    | .ms => "ms"
    | .s => "s"

/-- Stroke styles that have a name. -/
inductive NamedStroke where
  | solid | dashed | dotted | double | groove | ridge | outset | inset
  deriving DecidableEq, Repr

instance : Keyword NamedStroke where
  all := [.solid, .dashed, .dotted, .double, .groove, .ridge, .outset, .inset]
  word
    | .solid => "solid"
    | .dashed => "dashed"
    | .dotted => "dotted"
    | .double => "double"
    | .groove => "groove"
    | .ridge => "ridge"
    | .outset => "outset"
    | .inset => "inset"

/-- Line ends of a dashed stroke. -/
inductive LineCap where
  | round | butt | square
  deriving DecidableEq, Repr

instance : Keyword LineCap where
  all := [.round, .butt, .square]
  word
    | .round => "round"
    | .butt => "butt"
    | .square => "square"

/-- The types a token can have. -/
inductive TokenType where
  | color | dimension | duration | number | fontFamily | fontWeight | cubicBezier
  | transition | strokeStyle | shadow | border | typography | gradient
  deriving DecidableEq, Repr

instance : Keyword TokenType where
  all := [.color, .dimension, .duration, .number, .fontFamily, .fontWeight, .cubicBezier,
    .transition, .strokeStyle, .shadow, .border, .typography, .gradient]
  word
    | .color => "color"
    | .dimension => "dimension"
    | .duration => "duration"
    | .number => "number"
    | .fontFamily => "fontFamily"
    | .fontWeight => "fontWeight"
    | .cubicBezier => "cubicBezier"
    | .transition => "transition"
    | .strokeStyle => "strokeStyle"
    | .shadow => "shadow"
    | .border => "border"
    | .typography => "typography"
    | .gradient => "gradient"

namespace TokenType

/-- The name written under `$type`. -/
def name (t : TokenType) : String := Keyword.word t

/-- The type of a name. -/
def ofName? (s : String) : Option TokenType := Keyword.ofWord? s

/-- Composite types are objects whose members may refer to other tokens. -/
def isComposite : TokenType → Bool
  | .shadow | .border | .gradient | .transition | .typography => true
  | _ => false

end TokenType

/-- What a reader of an unknown type name is told. -/
def unknownTypeMessage (name : String) : String := "unknown token type \"" ++ name ++ "\""

end DesignTokens
