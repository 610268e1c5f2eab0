/-
Values as they are written with their aliases shown. That is what a writer
makes of a value whenever its action shows the aliases of the value so
(`TokenValue.write_eq_ok`), and one whose action shows other aliases in their
place makes it of the value with those (`TokenValue.write_eq_ok_respell`). There
is no local reference in what is written (`TokenValue.targets_toJson`).
-/
import DesignTokens.Document.Expansion
import DesignTokens.Proofs.List
import DesignTokens.Proofs.Outcome
import DesignTokens.Proofs.Value.Respell
import DesignTokens.Value.Writer

namespace DesignTokens

open Expansion (targets targetsOfItems targetsOfMembers)

/-- A field as JSON. -/
def Field.toJson {α : Type} (toJson : α → Json) (f : Field α) : Json :=
  f.write (m := Id) Alias.display toJson

/-- A stroke style as JSON. -/
def StrokeStyle.toJson (s : StrokeStyle) : Json := s.write (m := Id) Alias.display

/-- A shadow layer as JSON. -/
def Shadow.toJson (s : Shadow) : Json := s.write (m := Id) Alias.display

/-- A border as JSON. -/
def Border.toJson (b : Border) : Json := b.write (m := Id) Alias.display

/-- A text style as JSON. -/
def Typography.toJson (t : Typography) : Json := t.write (m := Id) Alias.display

/-- A transition as JSON. -/
def Transition.toJson (t : Transition) : Json := t.write (m := Id) Alias.display

/-- A gradient stop as JSON. -/
def GradientStop.toJson (s : GradientStop) : Json := s.write (m := Id) Alias.display

/-- A value as JSON, with each alias as it is shown. -/
def TokenValue.toJson (v : TokenValue) : Json := v.write (m := Id) Alias.display

@[simp] theorem Field.toJson_aliasTo {α : Type} (toJson : α → Json) (ref : Alias) :
    (Field.aliasTo ref).toJson toJson = .string ref.display := rfl

@[simp] theorem Field.toJson_value {α : Type} (toJson : α → Json) (v : α) :
    (Field.value v).toJson toJson = toJson v := rfl

theorem StrokeStyle.toJson_dashed (ds : List (Field Dimension)) (cap : LineCap) :
    (StrokeStyle.dashed ds cap).toJson =
      .object [("dashArray", .array (ds.map (Field.toJson Dimension.toJson))),
        ("lineCap", Keyword.toJson cap)] := by
  let written (raws : List Json) : Json :=
    .object [("dashArray", .array raws), ("lineCap", Keyword.toJson cap)]
  exact congrArg written (List.idRun_mapM (f := Field.toJson Dimension.toJson))

theorem Shadow.toJson_eq (s : Shadow) :
    s.toJson = .object ([("color", s.color.toJson Color.toJson),
        ("offsetX", s.offsetX.toJson Dimension.toJson),
        ("offsetY", s.offsetY.toJson Dimension.toJson), ("blur", s.blur.toJson Dimension.toJson)]
      ++ Json.optionalMember "spread" (Field.toJson Dimension.toJson) s.spread
      ++ Json.optionalMember "inset" .bool s.inset) := by
  obtain ⟨_, _, _, _, spread, _⟩ := s
  cases spread <;> rfl

theorem Border.toJson_eq (b : Border) :
    b.toJson = .object [("color", b.color.toJson Color.toJson),
      ("width", b.width.toJson Dimension.toJson),
      ("style", b.style.toJson StrokeStyle.toJson)] := by
  obtain ⟨_, _, style⟩ := b
  cases style <;> rfl

theorem Literal.toJson_layers (ss : List Shadow) :
    (Literal.shadow (.many ss)).toJson = .array (ss.map Shadow.toJson) := by
  exact congrArg Json.array (List.idRun_mapM (f := Shadow.toJson))

theorem Literal.toJson_gradient (ss : List GradientStop) :
    (Literal.gradient ss).toJson = .array (ss.map GradientStop.toJson) := by
  exact congrArg Json.array (List.idRun_mapM (f := GradientStop.toJson))

/-! ## Writers that show aliases -/

section

variable {ε : Type} {writeAlias : Alias → Except ε String} {g : Alias → Alias}

theorem Field.write_eq_ok {α : Type} {f : Field α} (toJson : α → Json)
    (h : ∀ ref ∈ f.aliases, writeAlias ref = .ok (g ref).display) :
    f.write writeAlias toJson = .ok ((f.respell g).toJson toJson) := by
  cases f with
  | value v => rfl
  | aliasTo ref =>
    rw [Field.write, h ref (List.mem_singleton.2 rfl)]
    rfl

theorem StrokeStyle.write_eq_ok {s : StrokeStyle}
    (h : ∀ ref ∈ s.aliases, writeAlias ref = .ok (g ref).display) :
    s.write writeAlias = .ok (s.respell g).toJson := by
  cases s with
  | keyword k => rfl
  | dashed ds cap =>
    have hds : ds.mapM (Field.write writeAlias Dimension.toJson)
        = .ok (ds.map fun d => (d.respell g).toJson Dimension.toJson) :=
      mapM_eq_pure_map fun d hd => Field.write_eq_ok _ fun ref hr =>
        h ref (List.mem_flatMap.2 ⟨d, hd, hr⟩)
    rw [StrokeStyle.write, hds, StrokeStyle.respell_dashed, StrokeStyle.toJson_dashed, List.map_map]
    rfl

theorem Shadow.write_eq_ok {s : Shadow}
    (h : ∀ ref ∈ s.aliases, writeAlias ref = .ok (g ref).display) :
    s.write writeAlias = .ok (s.respell g).toJson := by
  obtain ⟨color, offsetX, offsetY, blur, spread, inset⟩ := s
  simp only [Shadow.aliases, List.mem_append] at h
  have h₁ := color.write_eq_ok Color.toJson fun ref hr => h ref (by simp [hr])
  have h₂ := offsetX.write_eq_ok Dimension.toJson fun ref hr => h ref (by simp [hr])
  have h₃ := offsetY.write_eq_ok Dimension.toJson fun ref hr => h ref (by simp [hr])
  have h₄ := blur.write_eq_ok Dimension.toJson fun ref hr => h ref (by simp [hr])
  cases spread with
  | none =>
    simp only [Shadow.write, h₁, h₂, h₃, h₄, Shadow.toJson_eq]
    rfl
  | some f =>
    have h₅ := f.write_eq_ok Dimension.toJson fun ref hr => h ref (by simp [hr])
    simp only [Shadow.write, h₁, h₂, h₃, h₄, h₅, Shadow.toJson_eq]
    rfl

theorem Border.write_eq_ok {b : Border}
    (h : ∀ ref ∈ b.aliases, writeAlias ref = .ok (g ref).display) :
    b.write writeAlias = .ok (b.respell g).toJson := by
  obtain ⟨color, width, style⟩ := b
  simp only [Border.aliases, List.mem_append] at h
  have h₁ := color.write_eq_ok Color.toJson fun ref hr => h ref (by simp [hr])
  have h₂ := width.write_eq_ok Dimension.toJson fun ref hr => h ref (by simp [hr])
  cases style with
  | aliasTo ref =>
    have h₃ := h ref (by simp)
    simp only [Border.write, h₁, h₂, h₃, Border.toJson_eq]
    rfl
  | value s =>
    have h₃ := s.write_eq_ok fun ref hr => h ref (.inr hr)
    simp only [Border.write, h₁, h₂, h₃, Border.toJson_eq]
    rfl

theorem Typography.write_eq_ok {t : Typography}
    (h : ∀ ref ∈ t.aliases, writeAlias ref = .ok (g ref).display) :
    t.write writeAlias = .ok (t.respell g).toJson := by
  simp only [Typography.aliases, List.mem_append] at h
  have h₁ := t.fontFamily.write_eq_ok FontFamily.toJson fun ref hr =>
    h ref (by simp [hr])
  have h₂ := t.fontSize.write_eq_ok Dimension.toJson fun ref hr => h ref (by simp [hr])
  have h₃ := t.fontWeight.write_eq_ok .number fun ref hr => h ref (by simp [hr])
  have h₄ := t.lineHeight.write_eq_ok .number fun ref hr => h ref (by simp [hr])
  have h₅ := t.letterSpacing.write_eq_ok Dimension.toJson fun ref hr =>
    h ref (by simp [hr])
  simp only [Typography.write, h₁, h₂, h₃, h₄, h₅]
  rfl

theorem Transition.write_eq_ok {t : Transition}
    (h : ∀ ref ∈ t.aliases, writeAlias ref = .ok (g ref).display) :
    t.write writeAlias = .ok (t.respell g).toJson := by
  simp only [Transition.aliases, List.mem_append] at h
  have h₁ := t.duration.write_eq_ok Duration.toJson fun ref hr => h ref (by simp [hr])
  have h₂ := t.delay.write_eq_ok Duration.toJson fun ref hr => h ref (by simp [hr])
  have h₃ := t.timingFunction.write_eq_ok CubicBezier.toJson fun ref hr =>
    h ref (by simp [hr])
  simp only [Transition.write, h₁, h₂, h₃]
  rfl

theorem GradientStop.write_eq_ok {s : GradientStop}
    (h : ∀ ref ∈ s.aliases, writeAlias ref = .ok (g ref).display) :
    s.write writeAlias = .ok (s.respell g).toJson := by
  simp only [GradientStop.aliases, List.mem_append] at h
  have h₁ := s.color.write_eq_ok Color.toJson fun ref hr => h ref (.inl hr)
  have h₂ := s.position.write_eq_ok .number fun ref hr => h ref (.inr hr)
  simp only [GradientStop.write, h₁, h₂]
  rfl

theorem Literal.write_eq_ok {l : Literal}
    (h : ∀ ref ∈ l.aliases, writeAlias ref = .ok (g ref).display) :
    l.write writeAlias = .ok (l.respell g).toJson := by
  cases l with
  | color | dimension | duration | number | fontFamily | fontWeight | cubicBezier => rfl
  | transition t => exact t.write_eq_ok h
  | strokeStyle s => exact s.write_eq_ok h
  | border b => exact b.write_eq_ok h
  | typography t => exact t.write_eq_ok h
  | shadow layers =>
    cases layers with
    | one s =>
      refine s.write_eq_ok fun ref hr => h ref ?_
      simpa [Literal.aliases, OneOrList.toList] using hr
    | many ss =>
      have hss : ss.mapM (Shadow.write writeAlias) = .ok (ss.map fun s => (s.respell g).toJson) :=
        mapM_eq_pure_map fun s hs => s.write_eq_ok fun ref hr =>
          h ref (List.mem_flatMap.2 ⟨s, hs, hr⟩)
      rw [Literal.write, hss, Literal.respell_layers, Literal.toJson_layers, List.map_map]
      rfl
  | gradient ss =>
    have hss : ss.mapM (GradientStop.write writeAlias) =
        .ok (ss.map fun s => (s.respell g).toJson) :=
      mapM_eq_pure_map fun s hs => s.write_eq_ok fun ref hr =>
        h ref (List.mem_flatMap.2 ⟨s, hs, hr⟩)
    rw [Literal.write, hss, Literal.respell_gradient, Literal.toJson_gradient, List.map_map]
    rfl

/-- A writer that shows other aliases for those of a value writes it with the others in it. -/
theorem TokenValue.write_eq_ok_respell {v : TokenValue}
    (h : ∀ ref ∈ v.aliases, writeAlias ref = .ok (g ref).display) :
    v.write writeAlias = .ok (v.respell g).toJson := by
  cases v with
  | literal lit => exact lit.write_eq_ok h
  | aliasTo ref =>
    rw [TokenValue.write, h ref (List.mem_singleton.2 rfl)]
    rfl

/-- A writer that shows the aliases of a value writes it so. -/
theorem TokenValue.write_eq_ok {v : TokenValue}
    (h : ∀ ref ∈ v.aliases, writeAlias ref = .ok ref.display) :
    v.write writeAlias = .ok v.toJson := by
  have hid := TokenValue.write_eq_ok_respell (v := v) (g := id) h
  rwa [v.respell_id] at hid

end

/-! ## No local references -/

theorem targetsOfItems_map {α : Type} {toJson : α → Json} (h : ∀ a, targets (toJson a) = [])
    (l : List α) : targetsOfItems (l.map toJson) = [] := by
  induction l with
  | nil => rfl
  | cons a l ih => rw [List.map_cons, targetsOfItems, h, ih, List.append_nil]

theorem Color.targets_toJson (c : Color) : targets c.toJson = [] := by
  obtain ⟨_, components, alpha, hex⟩ := c
  have hc : targetsOfItems (components.map Json.number) = [] :=
    targetsOfItems_map (fun _ => rfl) components
  cases alpha <;> cases hex <;>
    simp [Color.toJson, targets, targetsOfMembers, Pointer.reference?, hc, Keyword.toJson,
      Json.optionalMember]

theorem Dimension.targets_toJson (d : Dimension) : targets d.toJson = [] := rfl

theorem Duration.targets_toJson (d : Duration) : targets d.toJson = [] := rfl

theorem FontFamily.targets_toJson (f : FontFamily) : targets (FontFamily.toJson f) = [] := by
  cases f with
  | one name => rfl
  | many names => exact targetsOfItems_map (fun _ => rfl) names

theorem CubicBezier.targets_toJson (b : CubicBezier) : targets b.toJson = [] := rfl

theorem Field.targets_toJson {α : Type} (toJson : α → Json) (h : ∀ a, targets (toJson a) = [])
    (f : Field α) : targets (f.toJson toJson) = [] := by
  cases f with
  | aliasTo ref => rfl
  | value v => exact h v

theorem StrokeStyle.targets_toJson (s : StrokeStyle) : targets s.toJson = [] := by
  cases s with
  | keyword k => rfl
  | dashed ds cap =>
    have hds := targetsOfItems_map (Field.targets_toJson _ Dimension.targets_toJson) ds
    simp [StrokeStyle.toJson_dashed, targets, targetsOfMembers, Pointer.reference?, hds,
      Keyword.toJson]

theorem Shadow.targets_toJson (s : Shadow) : targets s.toJson = [] := by
  have hc := Field.targets_toJson _ Color.targets_toJson
  have hd := Field.targets_toJson _ Dimension.targets_toJson
  obtain ⟨_, _, _, _, spread, inset⟩ := s
  cases spread <;> cases inset <;>
    simp [Shadow.toJson_eq, targets, targetsOfMembers, Pointer.reference?, hc, hd,
      Json.optionalMember]

theorem Border.targets_toJson (b : Border) : targets b.toJson = [] := by
  simp [Border.toJson_eq, targets, targetsOfMembers, Pointer.reference?,
    Field.targets_toJson _ Color.targets_toJson, Field.targets_toJson _ Dimension.targets_toJson,
    Field.targets_toJson _ StrokeStyle.targets_toJson]

theorem Typography.targets_toJson (t : Typography) : targets t.toJson = [] := by
  have hn := Field.targets_toJson Json.number fun _ => rfl
  have he : t.toJson = .object [("fontFamily", t.fontFamily.toJson FontFamily.toJson),
      ("fontSize", t.fontSize.toJson Dimension.toJson),
      ("fontWeight", t.fontWeight.toJson .number), ("lineHeight", t.lineHeight.toJson .number),
      ("letterSpacing", t.letterSpacing.toJson Dimension.toJson)] := rfl
  simp [he, targets, targetsOfMembers, Pointer.reference?, hn,
    Field.targets_toJson _ FontFamily.targets_toJson, Field.targets_toJson _ Dimension.targets_toJson]

theorem Transition.targets_toJson (t : Transition) : targets t.toJson = [] := by
  have he : t.toJson = .object [("duration", t.duration.toJson Duration.toJson),
      ("delay", t.delay.toJson Duration.toJson),
      ("timingFunction", t.timingFunction.toJson CubicBezier.toJson)] := rfl
  simp [he, targets, targetsOfMembers, Pointer.reference?,
    Field.targets_toJson _ Duration.targets_toJson, Field.targets_toJson _ CubicBezier.targets_toJson]

theorem GradientStop.targets_toJson (s : GradientStop) : targets s.toJson = [] := by
  have hn := Field.targets_toJson Json.number fun _ => rfl
  have he : s.toJson = .object [("color", s.color.toJson Color.toJson),
      ("position", s.position.toJson .number)] := rfl
  simp [he, targets, targetsOfMembers, Pointer.reference?, hn,
    Field.targets_toJson _ Color.targets_toJson]

theorem Literal.targets_toJson (l : Literal) : targets l.toJson = [] := by
  cases l with
  | color c => exact c.targets_toJson
  | dimension d => exact d.targets_toJson
  | duration d => exact d.targets_toJson
  | number n => rfl
  | fontFamily f => exact FontFamily.targets_toJson f
  | fontWeight n => rfl
  | cubicBezier b => exact b.targets_toJson
  | transition t => exact t.targets_toJson
  | strokeStyle s => exact s.targets_toJson
  | shadow layers =>
    cases layers with
    | one s => exact s.targets_toJson
    | many ss =>
      rw [Literal.toJson_layers]
      exact targetsOfItems_map Shadow.targets_toJson ss
  | border b => exact b.targets_toJson
  | typography t => exact t.targets_toJson
  | gradient ss =>
    rw [Literal.toJson_gradient]
    exact targetsOfItems_map GradientStop.targets_toJson ss

/-- No value is written with a local reference in it. -/
theorem TokenValue.targets_toJson (v : TokenValue) : targets v.toJson = [] := by
  cases v with
  | aliasTo ref => rfl
  | literal lit => exact lit.targets_toJson

end DesignTokens
