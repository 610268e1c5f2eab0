/-
Token values. A value is an alias or a literal; a literal of one of the
composite types has fields that may be aliases in turn.

`Literal.aliases` lists the aliases of a literal's fields in the order in which
the fields are written. `Literal.mapFields` runs an action on each of them in
the same order and puts the result in its place; `FieldKind` says what kinds of
field there are, what each holds, and which token type it takes.
-/
import DesignTokens.Keyword
import DesignTokens.Number.Basic
import DesignTokens.OneOrList
import DesignTokens.Text.Split

namespace DesignTokens

/-- The name under which a store knows a node. -/
structure NodeId where
  text : String
  deriving DecidableEq, Repr

/-- A reference to another token: by a dotted path of names, or by id. -/
inductive Alias where
  | path (dotted : String)
  | id (target : NodeId)
  deriving DecidableEq, Repr

namespace Alias

/-- The separator of a dotted path. -/
def separator : Char := '.'

/-- The names of a dotted path. -/
def segmentsOf (dotted : String) : List String := Text.split separator dotted

/-- The names of a path reference. -/
def segments? : Alias → Option (List String)
  | .path dotted => some (segmentsOf dotted)
  | .id _ => none

/-- The text of a path reference. -/
def braced (dotted : String) : String := "\x7b" ++ dotted ++ "\x7d"

/-- How a reference is shown. -/
def display : Alias → String
  | .path dotted => braced dotted
  | .id target => braced ("#" ++ target.text)

/-- The text between a brace at the front and a brace at the end. -/
def unbraced? (text : String) : Option String :=
  match text.toList with
  | '{' :: cs =>
    match cs.reverse with
    | '}' :: inner => some (String.ofList inner.reverse)
    | _ => none
  | _ => none

/-- Reads `{a.b.c}`. Some text without a brace must stand between the braces. -/
def parse? (text : String) : Option Alias := do
  let inner ← unbraced? text
  if inner.isEmpty || inner.toList.any (fun c => c = '{' || c = '}') then none
  else some (path inner)

end Alias

/-- A field of a composite value: an alias, or a value of its own. -/
inductive Field (α : Type) where
  | aliasTo (ref : Alias)
  | value (v : α)
  deriving DecidableEq, Repr

/-- A color by its components in a color space, with an opacity and a fallback. -/
structure Color where
  colorSpace : ColorSpace
  components : List Number
  alpha : Option Number
  hex : Option String
  deriving DecidableEq, Repr

/-- A length with its unit. -/
structure Dimension where
  value : Number
  unit : DimensionUnit
  deriving DecidableEq, Repr

/-- A time with its unit. -/
structure Duration where
  value : Number
  unit : DurationUnit
  deriving DecidableEq, Repr

/-- The two inner control points of a timing curve. -/
structure CubicBezier where
  x1 : Number
  y1 : Number
  x2 : Number
  y2 : Number
  deriving DecidableEq, Repr

/-- A family name, or a list of them with fallbacks. -/
abbrev FontFamily := OneOrList String

/-- A stroke style: one with a name, or the lengths of dashes and gaps. -/
inductive StrokeStyle where
  | keyword (k : NamedStroke)
  | dashed (dashArray : List (Field Dimension)) (lineCap : LineCap)
  deriving DecidableEq, Repr

/-- One layer of a shadow. -/
structure Shadow where
  color : Field Color
  offsetX : Field Dimension
  offsetY : Field Dimension
  blur : Field Dimension
  spread : Option (Field Dimension)
  inset : Option Bool
  deriving DecidableEq, Repr

/-- A border. -/
structure Border where
  color : Field Color
  width : Field Dimension
  style : Field StrokeStyle
  deriving DecidableEq, Repr

/-- A text style. -/
structure Typography where
  fontFamily : Field FontFamily
  fontSize : Field Dimension
  fontWeight : Field Number
  lineHeight : Field Number
  letterSpacing : Field Dimension
  deriving DecidableEq, Repr

/-- How a change runs in time. -/
structure Transition where
  duration : Field Duration
  delay : Field Duration
  timingFunction : Field CubicBezier
  deriving DecidableEq, Repr

/-- A color at a place along a gradient. -/
structure GradientStop where
  color : Field Color
  position : Field Number
  deriving DecidableEq, Repr

/-- A literal value, of one of the token types. -/
inductive Literal where
  | color (c : Color)
  | dimension (d : Dimension)
  | duration (d : Duration)
  | number (n : Number)
  | fontFamily (f : FontFamily)
  | fontWeight (n : Number)
  | cubicBezier (b : CubicBezier)
  | transition (t : Transition)
  | strokeStyle (s : StrokeStyle)
  | shadow (layers : OneOrList Shadow)
  | border (b : Border)
  | typography (t : Typography)
  | gradient (stops : List GradientStop)
  deriving DecidableEq, Repr

/-- The value of a token. -/
inductive TokenValue where
  | aliasTo (ref : Alias)
  | literal (lit : Literal)
  deriving DecidableEq, Repr

/-- The type of a literal. -/
def Literal.type : Literal → TokenType
  | color _ => .color
  | dimension _ => .dimension
  | duration _ => .duration
  | number _ => .number
  | fontFamily _ => .fontFamily
  | fontWeight _ => .fontWeight
  | cubicBezier _ => .cubicBezier
  | transition _ => .transition
  | strokeStyle _ => .strokeStyle
  | shadow _ => .shadow
  | border _ => .border
  | typography _ => .typography
  | gradient _ => .gradient

/-- The literal of a value that is not an alias. -/
def TokenValue.literal? : TokenValue → Option Literal
  | .aliasTo _ => none
  | .literal lit => some lit

/-! ## The aliases of a value -/

/-- The alias in a field, if it is one. -/
def Field.aliases {α : Type} : Field α → List Alias
  | .aliasTo ref => [ref]
  | .value _ => []

/-- The aliases among the dashes of a stroke. -/
def StrokeStyle.aliases : StrokeStyle → List Alias
  | keyword _ => []
  | dashed dashArray _ => dashArray.flatMap Field.aliases

/-- The aliases of a shadow layer. -/
def Shadow.aliases (s : Shadow) : List Alias :=
  s.color.aliases ++ s.offsetX.aliases ++ s.offsetY.aliases ++ s.blur.aliases
    ++ (s.spread.map Field.aliases).getD []

/-- The aliases of a border, its style's dashes included. -/
def Border.aliases (b : Border) : List Alias :=
  b.color.aliases ++ b.width.aliases ++
    match b.style with
    | .aliasTo ref => [ref]
    | .value style => style.aliases

/-- The aliases of a text style. -/
def Typography.aliases (t : Typography) : List Alias :=
  t.fontFamily.aliases ++ t.fontSize.aliases ++ t.fontWeight.aliases ++ t.lineHeight.aliases
    ++ t.letterSpacing.aliases

/-- The aliases of a transition. -/
def Transition.aliases (t : Transition) : List Alias :=
  t.duration.aliases ++ t.delay.aliases ++ t.timingFunction.aliases

/-- The aliases of a gradient stop. -/
def GradientStop.aliases (s : GradientStop) : List Alias :=
  s.color.aliases ++ s.position.aliases

/-- The aliases of a literal's fields, in field order. -/
def Literal.aliases : Literal → List Alias
  | strokeStyle s => s.aliases
  | shadow layers => layers.toList.flatMap Shadow.aliases
  | border b => b.aliases
  | typography t => t.aliases
  | transition t => t.aliases
  | gradient stops => stops.flatMap GradientStop.aliases
  | _ => []

/-- The aliases of a value: the whole value, or those of its fields. -/
def TokenValue.aliases : TokenValue → List Alias
  | .aliasTo ref => [ref]
  | .literal lit => lit.aliases

/-! ## Fields by kind -/

/-- The kinds of field. -/
inductive FieldKind where
  | color | dimension | duration | number | fontWeight | fontFamily | cubicBezier | strokeStyle
  deriving DecidableEq, Repr

namespace FieldKind

/-- What a field of a kind holds. -/
@[reducible] def Value : FieldKind → Type
  | color => Color
  | dimension => Dimension
  | duration => Duration
  | number => Number
  | fontWeight => Number
  | fontFamily => FontFamily
  | cubicBezier => CubicBezier
  | strokeStyle => StrokeStyle

/-- The type of the tokens that a field of a kind may refer to. -/
def type : FieldKind → TokenType
  | color => .color
  | dimension => .dimension
  | duration => .duration
  | number => .number
  | fontWeight => .fontWeight
  | fontFamily => .fontFamily
  | cubicBezier => .cubicBezier
  | strokeStyle => .strokeStyle

/-- The content of a literal that fits a kind. -/
def ofLiteral? : (k : FieldKind) → Literal → Option k.Value
  | color, .color c => some c
  | dimension, .dimension d => some d
  | duration, .duration d => some d
  | number, .number n => some n
  | fontWeight, .fontWeight n => some n
  | fontFamily, .fontFamily f => some f
  | cubicBezier, .cubicBezier b => some b
  | strokeStyle, .strokeStyle s => some s
  | _, _ => none

end FieldKind

section MapFields

variable {m : Type → Type} [Monad m]

/-- Puts the result of an action in the place of an alias; a value stays. -/
def Field.mapM {α : Type} (f : Alias → m (Field α)) : Field α → m (Field α)
  | .aliasTo ref => f ref
  | .value v => return .value v

variable (f : (k : FieldKind) → Alias → m (Field k.Value))

/-- `Literal.mapFields` on the dashes of a stroke. -/
def StrokeStyle.mapFields : StrokeStyle → m StrokeStyle
  | keyword k => return keyword k
  | dashed dashArray lineCap => do
    return dashed (← dashArray.mapM (Field.mapM (f .dimension))) lineCap

/-- `Literal.mapFields` on a shadow layer. -/
def Shadow.mapFields (s : Shadow) : m Shadow := do
  let color ← s.color.mapM (f .color)
  let offsetX ← s.offsetX.mapM (f .dimension)
  let offsetY ← s.offsetY.mapM (f .dimension)
  let blur ← s.blur.mapM (f .dimension)
  let spread ← match s.spread with
    | none => pure none
    | some spread => do pure (some (← spread.mapM (f .dimension)))
  return { color, offsetX, offsetY, blur, spread, inset := s.inset }

/-- `Literal.mapFields` on a border; a style of its own is entered. -/
def Border.mapFields (b : Border) : m Border := do
  let color ← b.color.mapM (f .color)
  let width ← b.width.mapM (f .dimension)
  let style ← match b.style with
    | .aliasTo ref => f .strokeStyle ref
    | .value style => do pure (.value (← style.mapFields f))
  return { color, width, style }

/-- `Literal.mapFields` on a text style. -/
def Typography.mapFields (t : Typography) : m Typography := do
  let fontFamily ← t.fontFamily.mapM (f .fontFamily)
  let fontSize ← t.fontSize.mapM (f .dimension)
  let fontWeight ← t.fontWeight.mapM (f .fontWeight)
  let lineHeight ← t.lineHeight.mapM (f .number)
  let letterSpacing ← t.letterSpacing.mapM (f .dimension)
  return { fontFamily, fontSize, fontWeight, lineHeight, letterSpacing }

/-- `Literal.mapFields` on a transition. -/
def Transition.mapFields (t : Transition) : m Transition := do
  let duration ← t.duration.mapM (f .duration)
  let delay ← t.delay.mapM (f .duration)
  let timingFunction ← t.timingFunction.mapM (f .cubicBezier)
  return { duration, delay, timingFunction }

/-- `Literal.mapFields` on a gradient stop. -/
def GradientStop.mapFields (s : GradientStop) : m GradientStop := do
  let color ← s.color.mapM (f .color)
  let position ← s.position.mapM (f .number)
  return { color, position }

/-- Runs an action on each field that is an alias, in field order, and puts its result there. -/
def Literal.mapFields : Literal → m Literal
  | strokeStyle s => do return strokeStyle (← s.mapFields f)
  | shadow layers => do return shadow (← layers.mapM (Shadow.mapFields f))
  | border b => do return border (← b.mapFields f)
  | typography t => do return typography (← t.mapFields f)
  | transition t => do return transition (← t.mapFields f)
  | gradient stops => do return gradient (← stops.mapM (GradientStop.mapFields f))
  | lit => return lit

end MapFields

end DesignTokens
