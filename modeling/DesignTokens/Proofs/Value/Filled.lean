/-
A literal filled in: every field that is an alias, among them the dashes of a
stroke and those of a border's own stroke, has become a value that belongs to
the alias, and everything else is as it was. `Filled` says this shape by shape,
for any relation between the aliases in fields of a kind and the contents of
that kind. It is what `Literal.mapFields` computes: the traversal succeeds just
if its action does on every alias, and gives the one literal so filled
(`Literal.mapFields_eq_ok_iff`).
-/
import DesignTokens.Proofs.List
import DesignTokens.Proofs.Outcome
import DesignTokens.Proofs.Value.Respell

namespace DesignTokens

/-- An alias in a field has become a value that belongs to it; a value has stayed. -/
inductive Field.Filled {α : Type} (R : Alias → α → Prop) : Field α → Field α → Prop
  | value (v : α) : Filled R (.value v) (.value v)
  | aliasTo {ref : Alias} {v : α} : R ref v → Filled R (.aliasTo ref) (.value v)

section

variable (R : (k : FieldKind) → Alias → k.Value → Prop)

/-- A stroke with its dashes filled in. -/
inductive StrokeStyle.Filled : StrokeStyle → StrokeStyle → Prop
  | keyword (k : NamedStroke) : Filled (.keyword k) (.keyword k)
  | dashed {ds es : List (Field Dimension)} {cap : LineCap} :
      List.Forall₂ (Field.Filled (R .dimension)) ds es → Filled (.dashed ds cap) (.dashed es cap)

/-- The style of a border: a stroke of its own is entered. -/
inductive StrokeStyle.FieldFilled : Field StrokeStyle → Field StrokeStyle → Prop
  | value {s t : StrokeStyle} : s.Filled R t → FieldFilled (.value s) (.value t)
  | aliasTo {ref : Alias} {t : StrokeStyle} :
      R .strokeStyle ref t → FieldFilled (.aliasTo ref) (.value t)

/-- A shadow layer with its fields filled in. -/
structure Shadow.Filled (s t : Shadow) : Prop where
  color : s.color.Filled (R .color) t.color
  offsetX : s.offsetX.Filled (R .dimension) t.offsetX
  offsetY : s.offsetY.Filled (R .dimension) t.offsetY
  blur : s.blur.Filled (R .dimension) t.blur
  spread : Option.Rel (Field.Filled (R .dimension)) s.spread t.spread
  inset : s.inset = t.inset

/-- A border with its fields filled in. -/
structure Border.Filled (b c : Border) : Prop where
  color : b.color.Filled (R .color) c.color
  width : b.width.Filled (R .dimension) c.width
  style : StrokeStyle.FieldFilled R b.style c.style

/-- A text style with its fields filled in. -/
structure Typography.Filled (t u : Typography) : Prop where
  fontFamily : t.fontFamily.Filled (R .fontFamily) u.fontFamily
  fontSize : t.fontSize.Filled (R .dimension) u.fontSize
  fontWeight : t.fontWeight.Filled (R .fontWeight) u.fontWeight
  lineHeight : t.lineHeight.Filled (R .number) u.lineHeight
  letterSpacing : t.letterSpacing.Filled (R .dimension) u.letterSpacing

/-- A transition with its fields filled in. -/
structure Transition.Filled (t u : Transition) : Prop where
  duration : t.duration.Filled (R .duration) u.duration
  delay : t.delay.Filled (R .duration) u.delay
  timingFunction : t.timingFunction.Filled (R .cubicBezier) u.timingFunction

/-- A gradient stop with its fields filled in. -/
structure GradientStop.Filled (s t : GradientStop) : Prop where
  color : s.color.Filled (R .color) t.color
  position : s.position.Filled (R .number) t.position

/-- A literal with its fields filled in. The literals of the plain types have none. -/
inductive Literal.Filled : Literal → Literal → Prop
  | color (c : Color) : Filled (.color c) (.color c)
  | dimension (d : Dimension) : Filled (.dimension d) (.dimension d)
  | duration (d : Duration) : Filled (.duration d) (.duration d)
  | number (n : Number) : Filled (.number n) (.number n)
  | fontFamily (f : FontFamily) : Filled (.fontFamily f) (.fontFamily f)
  | fontWeight (n : Number) : Filled (.fontWeight n) (.fontWeight n)
  | cubicBezier (b : CubicBezier) : Filled (.cubicBezier b) (.cubicBezier b)
  | strokeStyle {s t : StrokeStyle} : s.Filled R t → Filled (.strokeStyle s) (.strokeStyle t)
  | layer {s t : Shadow} : s.Filled R t → Filled (.shadow (.one s)) (.shadow (.one t))
  | layers {ss ts : List Shadow} :
      List.Forall₂ (Shadow.Filled R) ss ts → Filled (.shadow (.many ss)) (.shadow (.many ts))
  | border {b c : Border} : b.Filled R c → Filled (.border b) (.border c)
  | typography {t u : Typography} : t.Filled R u → Filled (.typography t) (.typography u)
  | transition {t u : Transition} : t.Filled R u → Filled (.transition t) (.transition u)
  | gradient {ss ts : List GradientStop} :
      List.Forall₂ (GradientStop.Filled R) ss ts → Filled (.gradient ss) (.gradient ts)

end

variable {R S : (k : FieldKind) → Alias → k.Value → Prop}

theorem Literal.Filled.type_eq {l m : Literal} (h : l.Filled R m) : l.type = m.type := by
  cases h <;> rfl

/-! ## Other aliases, weaker relations -/

section

variable {g : Alias → Alias}

theorem Field.Filled.respell {α : Type} {P Q : Alias → α → Prop} {f f' : Field α}
    (h : f.Filled P f') (hPQ : ∀ ref v, ref ∈ f.aliases → P ref v → Q (g ref) v) :
    (f.respell g).Filled Q f' := by
  cases h with
  | value v => exact .value v
  | aliasTo hv => exact .aliasTo (hPQ _ _ (List.mem_singleton.2 rfl) hv)

theorem StrokeStyle.Filled.respell {s t : StrokeStyle} (h : s.Filled R t)
    (hRS : ∀ k ref v, ref ∈ s.aliases → R k ref v → S k (g ref) v) : (s.respell g).Filled S t := by
  cases h with
  | keyword k => exact .keyword k
  | dashed hds =>
    rw [StrokeStyle.respell_dashed]
    refine .dashed (forall₂_map_of_mem hds fun d hd e hde => hde.respell fun ref v href => ?_)
    exact hRS .dimension ref v (List.mem_flatMap.2 ⟨d, hd, href⟩)

theorem Shadow.Filled.respell {s t : Shadow} (h : s.Filled R t)
    (hRS : ∀ k ref v, ref ∈ s.aliases → R k ref v → S k (g ref) v) : (s.respell g).Filled S t := by
  simp only [Shadow.aliases, List.mem_append] at hRS
  rw [Shadow.respell_eq]
  refine ⟨h.color.respell fun ref v hr => hRS .color ref v (by simp [hr]),
    h.offsetX.respell fun ref v hr => hRS .dimension ref v (by simp [hr]),
    h.offsetY.respell fun ref v hr => hRS .dimension ref v (by simp [hr]),
    h.blur.respell fun ref v hr => hRS .dimension ref v (by simp [hr]), ?_, h.inset⟩
  have hspread := h.spread
  generalize s.spread = f at hspread hRS
  generalize t.spread = f' at hspread
  cases hspread with
  | none => exact .none
  | some hf => exact .some (hf.respell fun ref v hr => hRS .dimension ref v (by simp [hr]))

theorem Border.Filled.respell {b c : Border} (h : b.Filled R c)
    (hRS : ∀ k ref v, ref ∈ b.aliases → R k ref v → S k (g ref) v) : (b.respell g).Filled S c := by
  simp only [Border.aliases, List.mem_append] at hRS
  rw [Border.respell_eq]
  refine ⟨h.color.respell fun ref v hr => hRS .color ref v (by simp [hr]),
    h.width.respell fun ref v hr => hRS .dimension ref v (by simp [hr]), ?_⟩
  have hstyle := h.style
  generalize b.style = f at hstyle hRS
  generalize c.style = f' at hstyle
  cases hstyle with
  | value hs => exact .value (hs.respell fun k ref v hr => hRS k ref v (.inr hr))
  | aliasTo hv => exact .aliasTo (hRS .strokeStyle _ _ (by simp) hv)

theorem Typography.Filled.respell {t u : Typography} (h : t.Filled R u)
    (hRS : ∀ k ref v, ref ∈ t.aliases → R k ref v → S k (g ref) v) : (t.respell g).Filled S u := by
  simp only [Typography.aliases, List.mem_append] at hRS
  exact ⟨h.fontFamily.respell fun ref v hr => hRS .fontFamily ref v (by simp [hr]),
    h.fontSize.respell fun ref v hr => hRS .dimension ref v (by simp [hr]),
    h.fontWeight.respell fun ref v hr => hRS .fontWeight ref v (by simp [hr]),
    h.lineHeight.respell fun ref v hr => hRS .number ref v (by simp [hr]),
    h.letterSpacing.respell fun ref v hr => hRS .dimension ref v (by simp [hr])⟩

theorem Transition.Filled.respell {t u : Transition} (h : t.Filled R u)
    (hRS : ∀ k ref v, ref ∈ t.aliases → R k ref v → S k (g ref) v) : (t.respell g).Filled S u := by
  simp only [Transition.aliases, List.mem_append] at hRS
  exact ⟨h.duration.respell fun ref v hr => hRS .duration ref v (by simp [hr]),
    h.delay.respell fun ref v hr => hRS .duration ref v (by simp [hr]),
    h.timingFunction.respell fun ref v hr => hRS .cubicBezier ref v (by simp [hr])⟩

theorem GradientStop.Filled.respell {s t : GradientStop} (h : s.Filled R t)
    (hRS : ∀ k ref v, ref ∈ s.aliases → R k ref v → S k (g ref) v) : (s.respell g).Filled S t := by
  simp only [GradientStop.aliases, List.mem_append] at hRS
  exact ⟨h.color.respell fun ref v hr => hRS .color ref v (.inl hr),
    h.position.respell fun ref v hr => hRS .number ref v (.inr hr)⟩

/-- Other aliases to which the same contents belong are filled in with the same. -/
theorem Literal.Filled.respell {l m : Literal} (h : l.Filled R m)
    (hRS : ∀ k ref v, ref ∈ l.aliases → R k ref v → S k (g ref) v) : (l.respell g).Filled S m := by
  cases h with
  | color c => exact .color c
  | dimension d => exact .dimension d
  | duration d => exact .duration d
  | number n => exact .number n
  | fontFamily f => exact .fontFamily f
  | fontWeight n => exact .fontWeight n
  | cubicBezier b => exact .cubicBezier b
  | strokeStyle hs => exact .strokeStyle (hs.respell hRS)
  | layer hs =>
    refine .layer (hs.respell fun k ref v hr => hRS k ref v ?_)
    simpa [Literal.aliases, OneOrList.toList] using hr
  | layers hss =>
    rw [Literal.respell_layers]
    refine .layers (forall₂_map_of_mem hss fun s hs t hst => hst.respell fun k ref v hr => ?_)
    exact hRS k ref v (List.mem_flatMap.2 ⟨s, hs, hr⟩)
  | border hb => exact .border (hb.respell hRS)
  | typography ht => exact .typography (ht.respell hRS)
  | transition ht => exact .transition (ht.respell hRS)
  | gradient hss =>
    rw [Literal.respell_gradient]
    refine .gradient (forall₂_map_of_mem hss fun s hs t hst => hst.respell fun k ref v hr => ?_)
    exact hRS k ref v (List.mem_flatMap.2 ⟨s, hs, hr⟩)

end

/-- Only what the relation says of the aliases in the literal counts. -/
theorem Literal.Filled.mono {l m : Literal} (h : l.Filled R m)
    (hRS : ∀ k ref v, ref ∈ l.aliases → R k ref v → S k ref v) : l.Filled S m := by
  rw [← l.respell_id]
  exact h.respell hRS

/-! ## The aliases that are filled -/

theorem Field.Filled.of_mem {α : Type} {P : Alias → α → Prop} {f g : Field α} (h : f.Filled P g)
    {ref : Alias} (href : ref ∈ f.aliases) : ∃ v, P ref v := by
  cases h with
  | value v => cases href
  | aliasTo hv =>
    cases List.mem_singleton.1 href
    exact ⟨_, hv⟩

theorem of_mem_flatMap {α : Type} {P : α → α → Prop} {aliases : α → List Alias} {l l' : List α}
    {ref : Alias} {q : Prop} (h : List.Forall₂ P l l') (href : ref ∈ l.flatMap aliases)
    (hq : ∀ a b, P a b → ref ∈ aliases a → q) : q := by
  obtain ⟨a, ha, hra⟩ := List.mem_flatMap.1 href
  induction h with
  | nil => cases ha
  | cons hab _ ih =>
    rcases List.mem_cons.1 ha with rfl | ha
    · exact hq _ _ hab hra
    · exact ih (List.mem_flatMap.2 ⟨a, ha, hra⟩) ha

theorem StrokeStyle.Filled.of_mem {s t : StrokeStyle} (h : s.Filled R t) {ref : Alias}
    (href : ref ∈ s.aliases) : ∃ k v, R k ref v := by
  cases h with
  | keyword k => cases href
  | dashed hds => exact of_mem_flatMap hds href fun _ _ hde hr => ⟨_, hde.of_mem hr⟩

theorem Shadow.Filled.of_mem {s t : Shadow} (h : s.Filled R t) {ref : Alias}
    (href : ref ∈ s.aliases) : ∃ k v, R k ref v := by
  simp only [Shadow.aliases, List.mem_append] at href
  rcases href with (((hr | hr) | hr) | hr) | hr
  · exact ⟨_, h.color.of_mem hr⟩
  · exact ⟨_, h.offsetX.of_mem hr⟩
  · exact ⟨_, h.offsetY.of_mem hr⟩
  · exact ⟨_, h.blur.of_mem hr⟩
  · have hspread := h.spread
    generalize s.spread = f at hspread hr
    generalize t.spread = g at hspread
    cases hspread with
    | none => cases hr
    | some hf => exact ⟨_, hf.of_mem hr⟩

theorem Border.Filled.of_mem {b c : Border} (h : b.Filled R c) {ref : Alias}
    (href : ref ∈ b.aliases) : ∃ k v, R k ref v := by
  simp only [Border.aliases, List.mem_append] at href
  rcases href with (hr | hr) | hr
  · exact ⟨_, h.color.of_mem hr⟩
  · exact ⟨_, h.width.of_mem hr⟩
  · have hstyle := h.style
    generalize b.style = f at hstyle hr
    generalize c.style = g at hstyle
    cases hstyle with
    | value hs => exact hs.of_mem hr
    | aliasTo hv =>
      cases List.mem_singleton.1 hr
      exact ⟨_, _, hv⟩

theorem Typography.Filled.of_mem {t u : Typography} (h : t.Filled R u) {ref : Alias}
    (href : ref ∈ t.aliases) : ∃ k v, R k ref v := by
  simp only [Typography.aliases, List.mem_append] at href
  rcases href with (((hr | hr) | hr) | hr) | hr
  · exact ⟨_, h.fontFamily.of_mem hr⟩
  · exact ⟨_, h.fontSize.of_mem hr⟩
  · exact ⟨_, h.fontWeight.of_mem hr⟩
  · exact ⟨_, h.lineHeight.of_mem hr⟩
  · exact ⟨_, h.letterSpacing.of_mem hr⟩

theorem Transition.Filled.of_mem {t u : Transition} (h : t.Filled R u) {ref : Alias}
    (href : ref ∈ t.aliases) : ∃ k v, R k ref v := by
  simp only [Transition.aliases, List.mem_append] at href
  rcases href with (hr | hr) | hr
  · exact ⟨_, h.duration.of_mem hr⟩
  · exact ⟨_, h.delay.of_mem hr⟩
  · exact ⟨_, h.timingFunction.of_mem hr⟩

theorem GradientStop.Filled.of_mem {s t : GradientStop} (h : s.Filled R t) {ref : Alias}
    (href : ref ∈ s.aliases) : ∃ k v, R k ref v := by
  rcases List.mem_append.1 href with hr | hr
  · exact ⟨_, h.color.of_mem hr⟩
  · exact ⟨_, h.position.of_mem hr⟩

/-- Each alias in a literal that is filled has a content. -/
theorem Literal.Filled.of_mem {l m : Literal} (h : l.Filled R m) {ref : Alias}
    (href : ref ∈ l.aliases) : ∃ k v, R k ref v := by
  cases h with
  | color | dimension | duration | number | fontFamily | fontWeight | cubicBezier => cases href
  | strokeStyle hs => exact hs.of_mem href
  | layer hs => exact hs.of_mem (by simpa [Literal.aliases, OneOrList.toList] using href)
  | layers hss => exact of_mem_flatMap hss href fun _ _ hst hr => hst.of_mem hr
  | border hb => exact hb.of_mem href
  | typography ht => exact ht.of_mem href
  | transition ht => exact ht.of_mem href
  | gradient hss => exact of_mem_flatMap hss href fun _ _ hst hr => hst.of_mem hr

/-! ## The aliases that are left -/

theorem Field.Filled.aliases_eq_nil {α : Type} {P : Alias → α → Prop} {f g : Field α}
    (h : f.Filled P g) : g.aliases = [] := by
  cases h <;> rfl

theorem flatMap_aliases_eq_nil {α : Type} {P : α → α → Prop} {aliases : α → List Alias}
    {l l' : List α} (h : List.Forall₂ P l l') (hP : ∀ a b, P a b → aliases b = []) :
    l'.flatMap aliases = [] := by
  induction h with
  | nil => rfl
  | cons hab _ ih => rw [List.flatMap_cons, hP _ _ hab, ih, List.nil_append]

theorem StrokeStyle.Filled.aliases_eq_nil {s t : StrokeStyle} (h : s.Filled R t) :
    t.aliases = [] := by
  cases h with
  | keyword k => rfl
  | dashed hds => exact flatMap_aliases_eq_nil hds fun _ _ => Field.Filled.aliases_eq_nil

theorem Shadow.Filled.aliases_eq_nil {s t : Shadow} (h : s.Filled R t) : t.aliases = [] := by
  rw [Shadow.aliases, h.color.aliases_eq_nil, h.offsetX.aliases_eq_nil, h.offsetY.aliases_eq_nil,
    h.blur.aliases_eq_nil]
  have hspread := h.spread
  generalize s.spread = f at hspread
  generalize t.spread = g at hspread
  cases hspread with
  | none => rfl
  | some hf => exact hf.aliases_eq_nil

theorem Border.Filled.aliases_eq_nil {b c : Border} (h : b.Filled R c)
    (hstroke : ∀ ref v, R .strokeStyle ref v → v.aliases = []) : c.aliases = [] := by
  rw [Border.aliases, h.color.aliases_eq_nil, h.width.aliases_eq_nil]
  have hstyle := h.style
  generalize b.style = f at hstyle
  generalize c.style = g at hstyle
  cases hstyle with
  | value hs => exact hs.aliases_eq_nil
  | aliasTo hv => exact hstroke _ _ hv

theorem Typography.Filled.aliases_eq_nil {t u : Typography} (h : t.Filled R u) :
    u.aliases = [] := by
  rw [Typography.aliases, h.fontFamily.aliases_eq_nil, h.fontSize.aliases_eq_nil,
    h.fontWeight.aliases_eq_nil, h.lineHeight.aliases_eq_nil, h.letterSpacing.aliases_eq_nil]
  rfl

theorem Transition.Filled.aliases_eq_nil {t u : Transition} (h : t.Filled R u) :
    u.aliases = [] := by
  rw [Transition.aliases, h.duration.aliases_eq_nil, h.delay.aliases_eq_nil,
    h.timingFunction.aliases_eq_nil]
  rfl

theorem GradientStop.Filled.aliases_eq_nil {s t : GradientStop} (h : s.Filled R t) :
    t.aliases = [] := by
  rw [GradientStop.aliases, h.color.aliases_eq_nil, h.position.aliases_eq_nil]
  rfl

/-- A stroke style is the only content of a field that can hold aliases in turn. Where those that
are filled in hold none, none is left in the literal. -/
theorem Literal.Filled.aliases_eq_nil {l m : Literal} (h : l.Filled R m)
    (hstroke : ∀ ref v, R .strokeStyle ref v → v.aliases = []) : m.aliases = [] := by
  cases h with
  | color | dimension | duration | number | fontFamily | fontWeight | cubicBezier => rfl
  | strokeStyle hs => exact hs.aliases_eq_nil
  | layer hs => exact (List.append_nil _).trans hs.aliases_eq_nil
  | layers hss => exact flatMap_aliases_eq_nil hss fun _ _ => Shadow.Filled.aliases_eq_nil
  | border hb => exact hb.aliases_eq_nil hstroke
  | typography ht => exact ht.aliases_eq_nil
  | transition ht => exact ht.aliases_eq_nil
  | gradient hss => exact flatMap_aliases_eq_nil hss fun _ _ => GradientStop.Filled.aliases_eq_nil

/-! ## The traversal -/

section Traversal

variable {ε : Type} {f : (k : FieldKind) → Alias → Except ε (Field k.Value)}
  (hf : ∀ k ref g, f k ref = .ok g → ∃ v, g = .value v)

include hf

theorem Field.mapM_eq_ok_iff {k : FieldKind} {x y : Field k.Value} :
    x.mapM (f k) = .ok y ↔ x.Filled (fun ref v => f k ref = .ok (.value v)) y := by
  cases x with
  | aliasTo ref =>
    constructor
    · intro h
      obtain ⟨v, rfl⟩ := hf k ref y h
      exact .aliasTo h
    · rintro ⟨⟩
      assumption
  | value v =>
    rw [Field.mapM, Outcome.pure_eq_ok_iff]
    constructor
    · rintro rfl
      exact .value v
    · rintro ⟨⟩
      rfl

theorem StrokeStyle.mapFields_eq_ok_iff {s t : StrokeStyle} :
    s.mapFields f = .ok t ↔ s.Filled (fun k ref v => f k ref = .ok (.value v)) t := by
  cases s with
  | keyword k =>
    rw [StrokeStyle.mapFields, Outcome.pure_eq_ok_iff]
    constructor
    · rintro rfl
      exact .keyword k
    · rintro ⟨⟩
      rfl
  | dashed ds cap =>
    simp only [StrokeStyle.mapFields, Outcome.bind_eq_ok_iff, Outcome.pure_eq_ok_iff,
      Outcome.mapM_eq_ok_iff, Field.mapM_eq_ok_iff hf]
    constructor
    · rintro ⟨es, hes, rfl⟩
      exact .dashed hes
    · rintro ⟨⟩
      exact ⟨_, ‹_›, rfl⟩

theorem Shadow.mapFields_eq_ok_iff {s t : Shadow} :
    s.mapFields f = .ok t ↔ s.Filled (fun k ref v => f k ref = .ok (.value v)) t := by
  obtain ⟨color, offsetX, offsetY, blur, spread, inset⟩ := s
  cases spread with
  | none =>
    simp only [Shadow.mapFields, Outcome.bind_eq_ok_iff, Outcome.pure_eq_ok_iff,
      Field.mapM_eq_ok_iff hf]
    constructor
    · rintro ⟨_, h₁, _, h₂, _, h₃, _, h₄, _, h₅, ht⟩
      subst h₅ ht
      exact ⟨h₁, h₂, h₃, h₄, .none, rfl⟩
    · rintro ⟨h₁, h₂, h₃, h₄, h₅, h₆⟩
      obtain ⟨_, _, _, _, spread, _⟩ := t
      cases h₅
      cases h₆
      exact ⟨_, h₁, _, h₂, _, h₃, _, h₄, _, rfl, rfl⟩
  | some g =>
    simp only [Shadow.mapFields, Outcome.bind_eq_ok_iff, Outcome.pure_eq_ok_iff,
      Field.mapM_eq_ok_iff hf]
    constructor
    · rintro ⟨_, h₁, _, h₂, _, h₃, _, h₄, _, h₅, _, hs, ht⟩
      subst hs ht
      exact ⟨h₁, h₂, h₃, h₄, .some h₅, rfl⟩
    · rintro ⟨h₁, h₂, h₃, h₄, h₅, h₆⟩
      obtain ⟨_, _, _, _, spread, _⟩ := t
      cases h₆
      cases h₅ with
      | some h₅ => exact ⟨_, h₁, _, h₂, _, h₃, _, h₄, _, h₅, _, rfl, rfl⟩

theorem Border.mapFields_eq_ok_iff {b c : Border} :
    b.mapFields f = .ok c ↔ b.Filled (fun k ref v => f k ref = .ok (.value v)) c := by
  obtain ⟨color, width, style⟩ := b
  cases style with
  | aliasTo ref =>
    simp only [Border.mapFields, Outcome.bind_eq_ok_iff, Outcome.pure_eq_ok_iff,
      Field.mapM_eq_ok_iff hf]
    constructor
    · rintro ⟨_, h₁, _, h₂, g, h₃, hc⟩
      obtain ⟨v, hv⟩ := hf _ _ _ h₃
      subst hv hc
      exact ⟨h₁, h₂, .aliasTo h₃⟩
    · rintro ⟨h₁, h₂, h₃⟩
      obtain ⟨_, _, style⟩ := c
      cases h₃ with
      | aliasTo h₃ => exact ⟨_, h₁, _, h₂, _, h₃, rfl⟩
  | value s =>
    simp only [Border.mapFields, Outcome.bind_eq_ok_iff, Outcome.pure_eq_ok_iff,
      Field.mapM_eq_ok_iff hf, StrokeStyle.mapFields_eq_ok_iff hf]
    constructor
    · rintro ⟨_, h₁, _, h₂, _, h₃, _, hs, hc⟩
      subst hs hc
      exact ⟨h₁, h₂, .value h₃⟩
    · rintro ⟨h₁, h₂, h₃⟩
      obtain ⟨_, _, style⟩ := c
      cases h₃ with
      | value h₃ => exact ⟨_, h₁, _, h₂, _, h₃, _, rfl, rfl⟩

theorem Typography.mapFields_eq_ok_iff {t u : Typography} :
    t.mapFields f = .ok u ↔ t.Filled (fun k ref v => f k ref = .ok (.value v)) u := by
  simp only [Typography.mapFields, Outcome.bind_eq_ok_iff, Outcome.pure_eq_ok_iff,
    Field.mapM_eq_ok_iff hf]
  constructor
  · rintro ⟨_, h₁, _, h₂, _, h₃, _, h₄, _, h₅, hu⟩
    subst hu
    exact ⟨h₁, h₂, h₃, h₄, h₅⟩
  · rintro ⟨h₁, h₂, h₃, h₄, h₅⟩
    exact ⟨_, h₁, _, h₂, _, h₃, _, h₄, _, h₅, rfl⟩

theorem Transition.mapFields_eq_ok_iff {t u : Transition} :
    t.mapFields f = .ok u ↔ t.Filled (fun k ref v => f k ref = .ok (.value v)) u := by
  simp only [Transition.mapFields, Outcome.bind_eq_ok_iff, Outcome.pure_eq_ok_iff,
    Field.mapM_eq_ok_iff hf]
  constructor
  · rintro ⟨_, h₁, _, h₂, _, h₃, hu⟩
    subst hu
    exact ⟨h₁, h₂, h₃⟩
  · rintro ⟨h₁, h₂, h₃⟩
    exact ⟨_, h₁, _, h₂, _, h₃, rfl⟩

theorem GradientStop.mapFields_eq_ok_iff {s t : GradientStop} :
    s.mapFields f = .ok t ↔ s.Filled (fun k ref v => f k ref = .ok (.value v)) t := by
  simp only [GradientStop.mapFields, Outcome.bind_eq_ok_iff, Outcome.pure_eq_ok_iff,
    Field.mapM_eq_ok_iff hf]
  constructor
  · rintro ⟨_, h₁, _, h₂, ht⟩
    subst ht
    exact ⟨h₁, h₂⟩
  · rintro ⟨h₁, h₂⟩
    exact ⟨_, h₁, _, h₂, rfl⟩

/-- **The traversal fills in.** An action that gives values runs through a
literal just if there is a literal filled with what it gives, and gives that. -/
theorem Literal.mapFields_eq_ok_iff {l m : Literal} :
    l.mapFields f = .ok m ↔ l.Filled (fun k ref v => f k ref = .ok (.value v)) m := by
  cases l with
  | color | dimension | duration | number | fontFamily | fontWeight | cubicBezier =>
    rw [Literal.mapFields, Outcome.pure_eq_ok_iff]
    constructor
    · intro h
      subst h
      constructor
    · intro h
      cases h
      rfl
    all_goals simp
  | strokeStyle s =>
    simp only [Literal.mapFields, Outcome.bind_eq_ok_iff, Outcome.pure_eq_ok_iff,
      StrokeStyle.mapFields_eq_ok_iff hf]
    constructor
    · rintro ⟨_, h, hm⟩
      subst hm
      exact .strokeStyle h
    · intro h
      cases h with
      | strokeStyle h => exact ⟨_, h, rfl⟩
  | shadow layers =>
    cases layers with
    | one s =>
      simp only [Literal.mapFields, OneOrList.mapM, Outcome.bind_eq_ok_iff,
        Outcome.pure_eq_ok_iff, Shadow.mapFields_eq_ok_iff hf]
      constructor
      · rintro ⟨_, ⟨_, h, hs⟩, hm⟩
        subst hs hm
        exact .layer h
      · intro h
        cases h with
        | layer h => exact ⟨_, ⟨_, h, rfl⟩, rfl⟩
    | many ss =>
      simp only [Literal.mapFields, OneOrList.mapM, Outcome.bind_eq_ok_iff,
        Outcome.pure_eq_ok_iff, Outcome.mapM_eq_ok_iff, Shadow.mapFields_eq_ok_iff hf]
      constructor
      · rintro ⟨_, ⟨_, h, hs⟩, hm⟩
        subst hs hm
        exact .layers h
      · intro h
        cases h with
        | layers h => exact ⟨_, ⟨_, h, rfl⟩, rfl⟩
  | border b =>
    simp only [Literal.mapFields, Outcome.bind_eq_ok_iff, Outcome.pure_eq_ok_iff,
      Border.mapFields_eq_ok_iff hf]
    constructor
    · rintro ⟨_, h, hm⟩
      subst hm
      exact .border h
    · intro h
      cases h with
      | border h => exact ⟨_, h, rfl⟩
  | typography t =>
    simp only [Literal.mapFields, Outcome.bind_eq_ok_iff, Outcome.pure_eq_ok_iff,
      Typography.mapFields_eq_ok_iff hf]
    constructor
    · rintro ⟨_, h, hm⟩
      subst hm
      exact .typography h
    · intro h
      cases h with
      | typography h => exact ⟨_, h, rfl⟩
  | transition t =>
    simp only [Literal.mapFields, Outcome.bind_eq_ok_iff, Outcome.pure_eq_ok_iff,
      Transition.mapFields_eq_ok_iff hf]
    constructor
    · rintro ⟨_, h, hm⟩
      subst hm
      exact .transition h
    · intro h
      cases h with
      | transition h => exact ⟨_, h, rfl⟩
  | gradient ss =>
    simp only [Literal.mapFields, Outcome.bind_eq_ok_iff, Outcome.pure_eq_ok_iff,
      Outcome.mapM_eq_ok_iff, GradientStop.mapFields_eq_ok_iff hf]
    constructor
    · rintro ⟨_, h, hm⟩
      subst hm
      exact .gradient h
    · intro h
      cases h with
      | gradient h => exact ⟨_, h, rfl⟩

end Traversal

end DesignTokens
