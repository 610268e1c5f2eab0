/-
Values with other aliases in the place of theirs. A function on aliases is run
over a value by the traversal that resolution uses, as an action without
effects; nothing but the aliases changes, and they stay where they are
(`Literal.aliases_respell`). Running two functions is running their composition.

The shape of a value is what all values have in common that differ in their
aliases alone.
-/
import DesignTokens.Proofs.Value.Traversal

namespace DesignTokens

/-- A field with its alias changed. -/
def Field.respell {α : Type} (g : Alias → Alias) (f : Field α) : Field α :=
  f.mapM (m := Id) fun ref => .aliasTo (g ref)

/-- A stroke style with its aliases changed. -/
def StrokeStyle.respell (g : Alias → Alias) (s : StrokeStyle) : StrokeStyle :=
  s.mapFields (m := Id) fun _ ref => .aliasTo (g ref)

/-- A shadow layer with its aliases changed. -/
def Shadow.respell (g : Alias → Alias) (s : Shadow) : Shadow :=
  s.mapFields (m := Id) fun _ ref => .aliasTo (g ref)

/-- A border with its aliases changed. -/
def Border.respell (g : Alias → Alias) (b : Border) : Border :=
  b.mapFields (m := Id) fun _ ref => .aliasTo (g ref)

/-- A text style with its aliases changed. -/
def Typography.respell (g : Alias → Alias) (t : Typography) : Typography :=
  t.mapFields (m := Id) fun _ ref => .aliasTo (g ref)

/-- A transition with its aliases changed. -/
def Transition.respell (g : Alias → Alias) (t : Transition) : Transition :=
  t.mapFields (m := Id) fun _ ref => .aliasTo (g ref)

/-- A gradient stop with its aliases changed. -/
def GradientStop.respell (g : Alias → Alias) (s : GradientStop) : GradientStop :=
  s.mapFields (m := Id) fun _ ref => .aliasTo (g ref)

/-- A literal with its aliases changed. -/
def Literal.respell (g : Alias → Alias) (l : Literal) : Literal :=
  l.mapFields (m := Id) fun _ ref => .aliasTo (g ref)

/-- A value with its aliases changed, the whole value if it is one. -/
def TokenValue.respell (g : Alias → Alias) : TokenValue → TokenValue
  | .aliasTo ref => .aliasTo (g ref)
  | .literal lit => .literal (lit.respell g)

/-- What is left of an alias but its place. -/
def Alias.blank (_ : Alias) : Alias := .path ""

/-- A literal with nothing left of its aliases but their places. -/
def Literal.shape (l : Literal) : Literal := l.respell Alias.blank

/-! ## Shape by shape -/

section

variable (g : Alias → Alias)

@[simp] theorem Field.respell_aliasTo {α : Type} (ref : Alias) :
    (Field.aliasTo ref : Field α).respell g = .aliasTo (g ref) := rfl

@[simp] theorem Field.respell_value {α : Type} (v : α) : (Field.value v).respell g = .value v := rfl

@[simp] theorem StrokeStyle.respell_keyword (k : NamedStroke) :
    (StrokeStyle.keyword k).respell g = .keyword k := rfl

@[simp] theorem StrokeStyle.respell_dashed (ds : List (Field Dimension)) (cap : LineCap) :
    (StrokeStyle.dashed ds cap).respell g = .dashed (ds.map (Field.respell g)) cap := by
  exact congrArg (StrokeStyle.dashed · cap) (List.idRun_mapM (f := Field.respell g))

theorem Shadow.respell_eq (s : Shadow) : s.respell g =
    ⟨s.color.respell g, s.offsetX.respell g, s.offsetY.respell g, s.blur.respell g,
      s.spread.map (Field.respell g), s.inset⟩ := by
  obtain ⟨_, _, _, _, spread, _⟩ := s
  cases spread <;> rfl

/-- The style of a border with its aliases changed; a stroke of its own is entered. -/
def StrokeStyle.respellField : Field StrokeStyle → Field StrokeStyle
  | .aliasTo ref => .aliasTo (g ref)
  | .value s => .value (s.respell g)

theorem Border.respell_eq (b : Border) : b.respell g =
    ⟨b.color.respell g, b.width.respell g, StrokeStyle.respellField g b.style⟩ := by
  obtain ⟨_, _, style⟩ := b
  cases style <;> rfl

theorem Typography.respell_eq (t : Typography) : t.respell g =
    ⟨t.fontFamily.respell g, t.fontSize.respell g, t.fontWeight.respell g,
      t.lineHeight.respell g, t.letterSpacing.respell g⟩ := rfl

theorem Transition.respell_eq (t : Transition) : t.respell g =
    ⟨t.duration.respell g, t.delay.respell g, t.timingFunction.respell g⟩ := rfl

theorem GradientStop.respell_eq (s : GradientStop) : s.respell g =
    ⟨s.color.respell g, s.position.respell g⟩ := rfl

@[simp] theorem Literal.respell_strokeStyle (s : StrokeStyle) :
    (Literal.strokeStyle s).respell g = .strokeStyle (s.respell g) := rfl

@[simp] theorem Literal.respell_layer (s : Shadow) :
    (Literal.shadow (.one s)).respell g = .shadow (.one (s.respell g)) := rfl

@[simp] theorem Literal.respell_layers (ss : List Shadow) :
    (Literal.shadow (.many ss)).respell g = .shadow (.many (ss.map (Shadow.respell g))) := by
  exact congrArg (Literal.shadow <| .many ·) (List.idRun_mapM (f := Shadow.respell g))

@[simp] theorem Literal.respell_border (b : Border) :
    (Literal.border b).respell g = .border (b.respell g) := rfl

@[simp] theorem Literal.respell_typography (t : Typography) :
    (Literal.typography t).respell g = .typography (t.respell g) := rfl

@[simp] theorem Literal.respell_transition (t : Transition) :
    (Literal.transition t).respell g = .transition (t.respell g) := rfl

@[simp] theorem Literal.respell_gradient (ss : List GradientStop) :
    (Literal.gradient ss).respell g = .gradient (ss.map (GradientStop.respell g)) := by
  exact congrArg Literal.gradient (List.idRun_mapM (f := GradientStop.respell g))

/-- A literal keeps its type. -/
@[simp] theorem Literal.type_respell (l : Literal) : (l.respell g).type = l.type := by
  cases l with
  | shadow layers => cases layers <;> rfl
  | _ => rfl

/-! ## The aliases -/

theorem Field.aliases_respell {α : Type} (f : Field α) :
    (f.respell g).aliases = f.aliases.map g := by
  cases f <;> rfl

theorem StrokeStyle.aliases_respell (s : StrokeStyle) :
    (s.respell g).aliases = s.aliases.map g := by
  cases s with
  | keyword k => rfl
  | dashed ds cap =>
    simp [StrokeStyle.aliases, List.flatMap_map, List.map_flatMap, Field.aliases_respell]

theorem Shadow.aliases_respell (s : Shadow) : (s.respell g).aliases = s.aliases.map g := by
  obtain ⟨_, _, _, _, spread, _⟩ := s
  cases spread <;> simp [Shadow.respell_eq, Shadow.aliases, Field.aliases_respell]

theorem Border.aliases_respell (b : Border) : (b.respell g).aliases = b.aliases.map g := by
  obtain ⟨_, _, style⟩ := b
  cases style <;> simp [Border.respell_eq, StrokeStyle.respellField, Border.aliases,
    Field.aliases_respell, StrokeStyle.aliases_respell]

/-- Each alias has become another one in its place. -/
theorem Literal.aliases_respell (l : Literal) : (l.respell g).aliases = l.aliases.map g := by
  cases l with
  | color | dimension | duration | number | fontFamily | fontWeight | cubicBezier => rfl
  | strokeStyle s => exact s.aliases_respell g
  | shadow layers =>
    cases layers with
    | one s => simp [Literal.aliases, OneOrList.toList, Shadow.aliases_respell]
    | many ss =>
      simp [Literal.aliases, OneOrList.toList, List.flatMap_map, List.map_flatMap,
        Shadow.aliases_respell]
  | border b => exact b.aliases_respell g
  | typography t =>
    simp [Typography.respell_eq, Literal.aliases, Typography.aliases, Field.aliases_respell]
  | transition t =>
    simp [Transition.respell_eq, Literal.aliases, Transition.aliases, Field.aliases_respell]
  | gradient ss =>
    simp [Literal.aliases, GradientStop.respell_eq, GradientStop.aliases, List.flatMap_map,
      List.map_flatMap, Field.aliases_respell]

theorem TokenValue.aliases_respell (v : TokenValue) : (v.respell g).aliases = v.aliases.map g := by
  cases v with
  | aliasTo ref => rfl
  | literal lit => exact lit.aliases_respell g

/-! ## No change, and two changes after one another -/

/-- A function that changes no alias changes no literal. -/
theorem Literal.respell_id (l : Literal) : l.respell id = l :=
  Literal.mapFields_pure (m := Id) l

theorem TokenValue.respell_id (v : TokenValue) : v.respell id = v := by
  cases v with
  | aliasTo ref => rfl
  | literal lit => exact congrArg TokenValue.literal lit.respell_id

variable (h : Alias → Alias)

theorem Field.respell_respell {α : Type} (f : Field α) :
    (f.respell g).respell h = f.respell (h ∘ g) := by
  cases f <;> rfl

theorem StrokeStyle.respell_respell (s : StrokeStyle) :
    (s.respell g).respell h = s.respell (h ∘ g) := by
  cases s with
  | keyword k => rfl
  | dashed ds cap => simp [Field.respell_respell]

theorem Shadow.respell_respell (s : Shadow) : (s.respell g).respell h = s.respell (h ∘ g) := by
  obtain ⟨_, _, _, _, spread, _⟩ := s
  cases spread <;> simp [Shadow.respell_eq, Field.respell_respell]

theorem Border.respell_respell (b : Border) : (b.respell g).respell h = b.respell (h ∘ g) := by
  obtain ⟨_, _, style⟩ := b
  cases style <;> simp [Border.respell_eq, StrokeStyle.respellField, Field.respell_respell,
    StrokeStyle.respell_respell]

theorem Literal.respell_respell (l : Literal) : (l.respell g).respell h = l.respell (h ∘ g) := by
  cases l with
  | color | dimension | duration | number | fontFamily | fontWeight | cubicBezier => rfl
  | strokeStyle s => simp [StrokeStyle.respell_respell]
  | shadow layers => cases layers <;> simp [Shadow.respell_respell]
  | border b => simp [Border.respell_respell]
  | typography t => simp [Typography.respell_eq, Field.respell_respell]
  | transition t => simp [Transition.respell_eq, Field.respell_respell]
  | gradient ss => simp [GradientStop.respell_eq, Field.respell_respell]

/-- The shape of a literal does not depend on its aliases. -/
theorem Literal.shape_respell (l : Literal) : (l.respell g).shape = l.shape :=
  l.respell_respell g _

end

end DesignTokens
