/-
Writing token values as JSON. An action that the caller chooses writes each
alias as a string, in field order; the first one that fails ends the writing.
Members come in the order of the type's shape, and optional ones only if
present, so that what is written reads back as the same value.
-/
import DesignTokens.Json.Basic
import DesignTokens.Value.Literal

namespace DesignTokens

/-- A keyword as JSON. -/
def Keyword.toJson {α : Type} [Keyword α] (a : α) : Json := .string (Keyword.word a)

/-- A member that is written only if there is a value. -/
def Json.optionalMember {α : Type} (key : String) (write : α → Json) (a : Option α) : Members :=
  match a with
  | none => []
  | some a => [(key, write a)]

/-! ## Plain shapes -/

/-- A color. -/
def Color.toJson (c : Color) : Json :=
  .object ([("colorSpace", Keyword.toJson c.colorSpace),
      ("components", .array (c.components.map .number))]
    ++ Json.optionalMember "alpha" .number c.alpha
    ++ Json.optionalMember "hex" .string c.hex)

/-- A length. -/
def Dimension.toJson (d : Dimension) : Json :=
  .object [("value", .number d.value), ("unit", Keyword.toJson d.unit)]

/-- A time. -/
def Duration.toJson (d : Duration) : Json :=
  .object [("value", .number d.value), ("unit", Keyword.toJson d.unit)]

/-- A font name, or a list of them. -/
def FontFamily.toJson : FontFamily → Json
  | .one name => .string name
  | .many names => .array (names.map .string)

/-- A timing curve as its four numbers. -/
def CubicBezier.toJson (b : CubicBezier) : Json :=
  .array [.number b.x1, .number b.y1, .number b.x2, .number b.y2]

/-! ## Composite shapes -/

section Write

variable {m : Type → Type} [Monad m] (writeAlias : Alias → m String)

/-- A field: an alias through the action, a value by its own writer. -/
def Field.write {α : Type} (toJson : α → Json) : Field α → m Json
  | .aliasTo ref => do return .string (← writeAlias ref)
  | .value v => return toJson v

/-- A stroke style. -/
def StrokeStyle.write : StrokeStyle → m Json
  | .keyword k => return Keyword.toJson k
  | .dashed dashArray lineCap => do
    let dashes ← dashArray.mapM (Field.write writeAlias Dimension.toJson)
    return .object [("dashArray", .array dashes), ("lineCap", Keyword.toJson lineCap)]

/-- A shadow layer; its `inset` member comes last. -/
def Shadow.write (s : Shadow) : m Json := do
  let color ← s.color.write writeAlias Color.toJson
  let offsetX ← s.offsetX.write writeAlias Dimension.toJson
  let offsetY ← s.offsetY.write writeAlias Dimension.toJson
  let blur ← s.blur.write writeAlias Dimension.toJson
  let spread ← match s.spread with
    | none => pure []
    | some spread => do pure [("spread", ← spread.write writeAlias Dimension.toJson)]
  return .object ([("color", color), ("offsetX", offsetX), ("offsetY", offsetY), ("blur", blur)]
    ++ spread ++ Json.optionalMember "inset" .bool s.inset)

/-- A border. -/
def Border.write (b : Border) : m Json := do
  let color ← b.color.write writeAlias Color.toJson
  let width ← b.width.write writeAlias Dimension.toJson
  let style ← match b.style with
    | .aliasTo ref => do pure (.string (← writeAlias ref))
    | .value style => style.write writeAlias
  return .object [("color", color), ("width", width), ("style", style)]

/-- A text style. -/
def Typography.write (t : Typography) : m Json := do
  let fontFamily ← t.fontFamily.write writeAlias FontFamily.toJson
  let fontSize ← t.fontSize.write writeAlias Dimension.toJson
  let fontWeight ← t.fontWeight.write writeAlias .number
  let lineHeight ← t.lineHeight.write writeAlias .number
  let letterSpacing ← t.letterSpacing.write writeAlias Dimension.toJson
  return .object [("fontFamily", fontFamily), ("fontSize", fontSize), ("fontWeight", fontWeight),
    ("lineHeight", lineHeight), ("letterSpacing", letterSpacing)]

/-- A transition. -/
def Transition.write (t : Transition) : m Json := do
  let duration ← t.duration.write writeAlias Duration.toJson
  let delay ← t.delay.write writeAlias Duration.toJson
  let timingFunction ← t.timingFunction.write writeAlias CubicBezier.toJson
  return .object [("duration", duration), ("delay", delay), ("timingFunction", timingFunction)]

/-- A gradient stop. -/
def GradientStop.write (s : GradientStop) : m Json := do
  let color ← s.color.write writeAlias Color.toJson
  let position ← s.position.write writeAlias .number
  return .object [("color", color), ("position", position)]

/-- Writes a literal. -/
def Literal.write : Literal → m Json
  | .color c => return c.toJson
  | .dimension d => return d.toJson
  | .duration d => return d.toJson
  | .number n => return .number n
  | .fontFamily f => return FontFamily.toJson f
  | .fontWeight n => return .number n
  | .cubicBezier b => return b.toJson
  | .transition t => t.write writeAlias
  | .strokeStyle s => s.write writeAlias
  | .shadow (.one layer) => layer.write writeAlias
  | .shadow (.many layers) => do return .array (← layers.mapM (Shadow.write writeAlias))
  | .border b => b.write writeAlias
  | .typography t => t.write writeAlias
  | .gradient stops => do return .array (← stops.mapM (GradientStop.write writeAlias))

/-- Writes a value. -/
def TokenValue.write : TokenValue → m Json
  | .aliasTo ref => do return .string (← writeAlias ref)
  | .literal lit => lit.write writeAlias

end Write

/-- A literal as JSON, with each alias as it is shown. -/
def Literal.toJson (lit : Literal) : Json := lit.write (m := Id) Alias.display

end DesignTokens
