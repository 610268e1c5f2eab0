/-
What a reader of values gives is written as something that it reads as the same.
Members that a shape does not name are gone then and the others stand in the
order of the shape, so it is the value that comes back and not the text.

A plain value may stand in a field, where it must not be taken for an alias.
`ReadsBack` asks for both: the writer's text is none, and it is read again.

The reader does not look at the names in an alias. So a composite value that has
the shape of one that was read is read again as well, whatever paths its aliases
are (`TokenValue.ofJson_toJson_literal`).
-/
import DesignTokens.Proofs.Value.Paths
import DesignTokens.Proofs.Value.Written

namespace DesignTokens

open Outcome

/-- A value that is read and is no alias is written as one that is read again and is none. -/
def ReadsBack {α : Type} (read : Json → Checked α) (toJson : α → Json) : Prop :=
  ∀ raw a, Alias.ofJson? raw = .ok none → read raw = .ok a →
    Alias.ofJson? (toJson a) = .ok none ∧ read (toJson a) = .ok a

/-- A reader whose writer gives the very value that was read. -/
theorem ReadsBack.of_eq {α : Type} {read : Json → Checked α} {toJson : α → Json}
    (h : ∀ raw a, read raw = .ok a → toJson a = raw) : ReadsBack read toJson := by
  intro raw a ha hr
  rw [h raw a hr]
  exact ⟨ha, hr⟩

/-! ## Fields and lists -/

theorem Field.ofJson_toJson {α : Type} {read : Json → Checked α} {toJson : α → Json}
    (h : ReadsBack read toJson) {raw : Json} {f f' : Field α} (hf : Field.ofJson read raw = .ok f)
    (hs : f.respell Alias.blank = f'.respell Alias.blank) (ha : ∀ ref ∈ f'.aliases, ref.Spelled) :
    Field.ofJson read (f'.toJson toJson) = .ok f' := by
  cases f' with
  | aliasTo ref =>
    simp only [Field.toJson_aliasTo, Field.ofJson, bind_eq_ok_iff]
    exact ⟨some ref, (ha ref (List.mem_singleton.2 rfl)).2, rfl⟩
  | value v =>
    rcases Field.ofJson_cases hf with ⟨_, he, _⟩ | ⟨w, he, hna, hw⟩
    · subst he
      cases hs
    · subst he
      cases hs
      obtain ⟨hnb, hback⟩ := h raw v hna hw
      simp only [Field.toJson_value, Field.ofJson, bind_eq_ok_iff]
      refine ⟨none, hnb, ?_⟩
      simp only [bind_eq_ok_iff, pure_eq_ok_iff]
      exact ⟨v, hback, rfl⟩

/-- Items of the shapes that were read are read again if each of them is. -/
theorem mapM_toJson_of_shape {α β : Type} {read : Json → Checked α} {toJson : α → Json}
    {f : α → β} {p : α → Prop}
    (h : ∀ raw a b, read raw = .ok a → f a = f b → p b → read (toJson b) = .ok b)
    {items : List Json} {l l' : List α} (hl : items.mapM read = .ok l)
    (hs : l.map f = l'.map f) (hg : ∀ b ∈ l', p b) :
    (l'.map toJson).mapM read = .ok l' := by
  rw [mapM_eq_ok_iff] at hl ⊢
  induction hl generalizing l' with
  | nil =>
    cases l' with
    | nil => exact .nil
    | cons b l' => cases hs
  | cons ha _ ih =>
    cases l' with
    | nil => cases hs
    | cons b l' =>
      obtain ⟨hab, hs⟩ := List.cons.inj hs
      exact .cons (h _ _ b ha hab (hg b (List.mem_cons_self ..)))
        (ih hs fun c hc => hg c (List.mem_cons_of_mem _ hc))

theorem mapM_toJson {α : Type} {read : Json → Checked α} (toJson : α → Json)
    (h : ∀ raw a, read raw = .ok a → read (toJson a) = .ok a) {items : List Json} {l : List α}
    (hl : items.mapM read = .ok l) : (l.map toJson).mapM read = .ok l := by
  refine mapM_toJson_of_shape (f := id) (p := fun _ => True) (fun raw a b ha hab _ => ?_) hl rfl
    fun _ _ => trivial
  cases hab
  exact h raw a ha

theorem ne_nil_of_mapM_eq_ok {α β : Type} {read : Json → Checked α} {f : α → β}
    {items : List Json} {l l' : List α} (hl : items.mapM read = .ok l) (hne : items ≠ [])
    (hs : l.map f = l'.map f) (toJson : α → Json) : l'.map toJson ≠ [] := by
  rw [mapM_eq_ok_iff] at hl
  cases hl with
  | nil => exact absurd rfl hne
  | cons _ _ =>
    cases l' with
    | nil => cases hs
    | cons b l' => exact List.cons_ne_nil _ _

theorem map_eq_of_mapM {α : Type} {read : Json → Checked α} {toJson : α → Json}
    (h : ∀ raw a, read raw = .ok a → toJson a = raw) {items : List Json} {l : List α}
    (hl : items.mapM read = .ok l) : l.map toJson = items := by
  rw [mapM_eq_ok_iff] at hl
  induction hl with
  | nil => rfl
  | cons ha _ ih => rw [List.map_cons, h _ _ ha, ih]

/-! ## Values that are written as they were read -/

theorem Number.eq_of_named {what : String} {raw : Json} {n : Number}
    (h : Number.named what raw = .ok n) : Json.number n = raw := by
  cases raw <;> simp_all [Number.named]

theorem Number.eq_of_ofJson {raw : Json} {n : Number} (h : Number.ofJson raw = .ok n) :
    Json.number n = raw := by
  cases raw <;> simp_all [Number.ofJson]

theorem Number.eq_of_within {what : String} {lo hi : Nat} {raw : Json} {n : Number}
    (h : Number.within what lo hi raw = .ok n) : Json.number n = raw := by
  simp only [Number.within, bind_eq_ok_iff] at h
  obtain ⟨m, hm, h⟩ := h
  split at h
  · cases h
    exact Number.eq_of_named hm
  · cases h

theorem Number.eq_of_fontWeightOfJson {raw : Json} {n : Number}
    (h : Number.fontWeightOfJson raw = .ok n) : Json.number n = raw := by
  simp only [Number.fontWeightOfJson, bind_eq_ok_iff] at h
  obtain ⟨m, hm, h⟩ := h
  split at h
  · cases h
    exact Number.eq_of_within hm
  · cases h

theorem Keyword.eq_of_ofJson {α : Type} [Keyword α] {what : String} {raw : Json} {a : α}
    (h : Keyword.ofJson what raw = .ok a) : Keyword.toJson a = raw := by
  simp only [Keyword.ofJson] at h
  split at h
  · next b hb =>
    cases h
    obtain ⟨s, hs, hw⟩ := Option.bind_eq_some_iff.1 hb
    have hword : Keyword.word a = s := by simpa using List.find?_some hw
    cases raw <;> simp_all [Json.string?, Keyword.toJson]
  · cases h

theorem Color.eq_of_componentOfJson {raw : Json} {n : Number}
    (h : Color.componentOfJson raw = .ok n) : Json.number n = raw := by
  cases raw <;> simp_all [Color.componentOfJson]

theorem Color.eq_of_hexOfJson {raw : Json} {s : String} (h : Color.hexOfJson raw = .ok s) :
    Json.string s = raw := by
  simp only [Color.hexOfJson] at h
  split at h
  · split at h <;> cases h
    rfl
  · cases h

theorem FontFamily.eq_of_nameOfJson {raw : Json} {name : String}
    (h : FontFamily.nameOfJson raw = .ok name) : Json.string name = raw := by
  simp only [FontFamily.nameOfJson] at h
  split at h
  · split at h <;> cases h
    rfl
  · cases h

theorem FontFamily.eq_of_ofJson {raw : Json} {f : FontFamily} (h : FontFamily.ofJson raw = .ok f) :
    FontFamily.toJson f = raw := by
  simp only [FontFamily.ofJson] at h
  split at h
  · simp only [bind_eq_ok_iff, pure_eq_ok_iff] at h
    obtain ⟨name, hn, hf⟩ := h
    subst hf
    exact FontFamily.eq_of_nameOfJson hn
  · simp only [bind_eq_ok_iff, pure_eq_ok_iff] at h
    obtain ⟨names, hns, hf⟩ := h
    subst hf
    exact congrArg Json.array (map_eq_of_mapM (fun _ _ => FontFamily.eq_of_nameOfJson) hns)
  · cases h

theorem CubicBezier.eq_of_ofJson {raw : Json} {b : CubicBezier}
    (h : CubicBezier.ofJson raw = .ok b) : b.toJson = raw := by
  simp only [CubicBezier.ofJson] at h
  split at h
  · simp only [bind_eq_ok_iff, pure_eq_ok_iff] at h
    obtain ⟨_, h₁, _, h₂, _, h₃, _, h₄, hb⟩ := h
    subst hb
    rw [CubicBezier.toJson, Number.eq_of_within h₁, Number.eq_of_ofJson h₂,
      Number.eq_of_within h₃, Number.eq_of_ofJson h₄]
  · cases h

/-! ## Plain objects -/

theorem readOptional_map {α : Type} {read : Json → Checked α} (toJson : α → Json)
    (h : ∀ raw a, read raw = .ok a → read (toJson a) = .ok a) {raw? : Option Json}
    {a? : Option α} (ha : readOptional read raw? = .ok a?) :
    readOptional read (a?.map toJson) = .ok a? := by
  cases raw? with
  | none =>
    cases ha
    rfl
  | some raw =>
    obtain ⟨a, hr, he⟩ := readOptional_some_iff.1 ha
    subst he
    exact readOptional_some_iff.2 ⟨a, h raw a hr, rfl⟩

theorem Color.ofJson_object {ms : Members} : Color.ofJson (.object ms) = (do
    let colorSpace ← Keyword.ofJson "`colorSpace`" (← Json.required ms "colorSpace")
    let items ← Json.nonEmptyItems "components" (← Json.required ms "components")
    let components ← items.mapM Color.componentOfJson
    let alpha ← readOptional (Number.within "`alpha`" 0 1) (Dict.get? ms "alpha")
    let hex ← readOptional Color.hexOfJson (Dict.get? ms "hex")
    return { colorSpace, components, alpha, hex }) := by
  simp only [← readOptional_bind]
  rfl

theorem Color.ofJson_toJson {raw : Json} {c : Color} (h : Color.ofJson raw = .ok c) :
    Color.ofJson c.toJson = .ok c := by
  cases raw with
  | object ms =>
    rw [Color.ofJson_object] at h
    simp only [bind_eq_ok_iff, pure_eq_ok_iff, Json.required_eq_ok_iff,
      Json.nonEmptyItems_eq_ok_iff] at h
    obtain ⟨_, _, space, h₁, _, _, items, ⟨_, hne⟩, components, h₂, alpha, h₃, hex, h₄, hc⟩ := h
    subst hc
    have hb₁ : Keyword.ofJson "`colorSpace`" (Keyword.toJson space) = .ok space := by
      rw [Keyword.eq_of_ofJson h₁, h₁]
    have hb₂ := mapM_toJson .number
      (fun _ _ hn => by rw [Color.eq_of_componentOfJson hn, hn]) h₂
    have hb₃ := readOptional_map .number
      (fun _ _ hn => by rw [Number.eq_of_within hn, hn]) h₃
    have hb₄ := readOptional_map .string
      (fun _ _ hs => by rw [Color.eq_of_hexOfJson hs, hs]) h₄
    rw [Color.toJson, Color.ofJson_object]
    simp only [bind_eq_ok_iff, pure_eq_ok_iff, Json.required_eq_ok_iff,
      Json.nonEmptyItems_eq_ok_iff]
    refine ⟨_, rfl, space, hb₁, _, rfl, _, ⟨rfl, ne_nil_of_mapM_eq_ok (f := id) h₂ hne rfl _⟩, components, hb₂,
      alpha, ?_, hex, ?_, rfl⟩
    · rw [← hb₃]
      cases alpha <;> cases hex <;> rfl
    · rw [← hb₄]
      cases alpha <;> cases hex <;> rfl
  | _ => simp [Color.ofJson, Json.membersOf, Json.members?] at h

theorem Dimension.ofJson_toJson {raw : Json} {d : Dimension} (h : Dimension.ofJson raw = .ok d) :
    Dimension.ofJson d.toJson = .ok d := by
  simp only [Dimension.ofJson, bind_eq_ok_iff, pure_eq_ok_iff, Json.membersOf_eq_ok_iff,
    Json.required_eq_ok_iff] at h ⊢
  obtain ⟨_, _, _, _, value, h₁, _, _, unit, h₂, hd⟩ := h
  subst hd
  refine ⟨_, rfl, _, rfl, value, ?_, _, rfl, unit, ?_, rfl⟩
  · rw [Number.eq_of_named h₁, h₁]
  · rw [Keyword.eq_of_ofJson h₂, h₂]

theorem Duration.ofJson_toJson {raw : Json} {d : Duration} (h : Duration.ofJson raw = .ok d) :
    Duration.ofJson d.toJson = .ok d := by
  simp only [Duration.ofJson, bind_eq_ok_iff, pure_eq_ok_iff, Json.membersOf_eq_ok_iff,
    Json.required_eq_ok_iff] at h ⊢
  obtain ⟨_, _, _, _, value, h₁, _, _, unit, h₂, hd⟩ := h
  subst hd
  refine ⟨_, rfl, _, rfl, value, ?_, _, rfl, unit, ?_, rfl⟩
  · rw [Number.eq_of_named h₁, h₁]
  · rw [Keyword.eq_of_ofJson h₂, h₂]

/-! ## What may stand in a field -/

theorem Color.readsBack : ReadsBack Color.ofJson Color.toJson :=
  fun _ _ _ h => ⟨rfl, Color.ofJson_toJson h⟩

theorem Dimension.readsBack : ReadsBack Dimension.ofJson Dimension.toJson :=
  fun _ _ _ h => ⟨rfl, Dimension.ofJson_toJson h⟩

theorem Duration.readsBack : ReadsBack Duration.ofJson Duration.toJson :=
  fun _ _ _ h => ⟨rfl, Duration.ofJson_toJson h⟩

theorem FontFamily.readsBack : ReadsBack FontFamily.ofJson FontFamily.toJson :=
  .of_eq fun _ _ => FontFamily.eq_of_ofJson

theorem CubicBezier.readsBack : ReadsBack CubicBezier.ofJson CubicBezier.toJson :=
  .of_eq fun _ _ => CubicBezier.eq_of_ofJson

theorem Number.readsBack : ReadsBack Number.ofJson .number := .of_eq fun _ _ => Number.eq_of_ofJson

theorem Number.readsBack_within (what : String) (lo hi : Nat) :
    ReadsBack (Number.within what lo hi) .number :=
  .of_eq fun _ _ => Number.eq_of_within

theorem Number.readsBack_fontWeight : ReadsBack Number.fontWeightOfJson .number :=
  .of_eq fun _ _ => Number.eq_of_fontWeightOfJson

/-- A stroke style of the shape that was read is no alias, and it is read again. -/
theorem StrokeStyle.ofJson_toJson {raw : Json} {s s' : StrokeStyle}
    (hna : Alias.ofJson? raw = .ok none) (h : StrokeStyle.ofJson raw = .ok s)
    (hs : s.respell Alias.blank = s'.respell Alias.blank)
    (ha : ∀ ref ∈ s'.aliases, ref.Spelled) :
    Alias.ofJson? s'.toJson = .ok none ∧ StrokeStyle.ofJson s'.toJson = .ok s' := by
  unfold StrokeStyle.ofJson at h
  split at h
  · simp only [bind_eq_ok_iff, pure_eq_ok_iff] at h
    obtain ⟨k, hk, he⟩ := h
    subst he
    cases s' with
    | dashed => simp at hs
    | keyword k' =>
      cases hs
      have he : (StrokeStyle.keyword k).toJson = _ := Keyword.eq_of_ofJson hk
      rw [he]
      exact ⟨hna, by simp only [StrokeStyle.ofJson, hk]; rfl⟩
  · simp only [bind_eq_ok_iff, pure_eq_ok_iff, Json.membersOf_eq_ok_iff, Json.required_eq_ok_iff,
      Json.nonEmptyItems_eq_ok_iff] at h
    obtain ⟨_, _, _, _, items, ⟨_, hne⟩, ds, hds, _, _, cap, hcap, he⟩ := h
    subst he
    cases s' with
    | keyword => simp at hs
    | dashed ds' cap' =>
      simp only [StrokeStyle.respell_dashed, StrokeStyle.dashed.injEq] at hs
      obtain ⟨hds', rfl⟩ := hs
      rw [StrokeStyle.toJson_dashed]
      refine ⟨rfl, ?_⟩
      have hback := mapM_toJson_of_shape (p := fun d => ∀ ref ∈ d.aliases, ref.Spelled)
        (fun _ _ _ hf hs ha => by
          rw [Checked.inMember_eq_ok_iff] at hf ⊢
          exact Field.ofJson_toJson Dimension.readsBack hf hs ha) hds hds'
        fun d hd ref hr => ha ref (List.mem_flatMap.2 ⟨d, hd, hr⟩)
      simp only [StrokeStyle.ofJson, bind_eq_ok_iff, pure_eq_ok_iff, Json.membersOf_eq_ok_iff,
        Json.required_eq_ok_iff, Json.nonEmptyItems_eq_ok_iff]
      refine ⟨_, rfl, _, rfl, _, ⟨rfl, ne_nil_of_mapM_eq_ok hds hne hds' _⟩, ds', hback, _, rfl,
        cap, ?_, rfl⟩
      rw [Keyword.eq_of_ofJson hcap, hcap]

/-- The style of a border of the shape that was read is read again. -/
theorem StrokeStyle.ofJson_toJson_field {raw : Json} {f f' : Field StrokeStyle}
    (hf : Field.ofJson StrokeStyle.ofJson raw = .ok f)
    (hs : StrokeStyle.respellField Alias.blank f = StrokeStyle.respellField Alias.blank f')
    (ha : ∀ ref ∈ (match f' with
      | .aliasTo ref => [ref]
      | .value style => style.aliases), ref.Spelled) :
    Field.ofJson StrokeStyle.ofJson (f'.toJson StrokeStyle.toJson) = .ok f' := by
  cases f' with
  | aliasTo ref =>
    simp only [Field.toJson_aliasTo, Field.ofJson, bind_eq_ok_iff]
    exact ⟨some ref, (ha ref (List.mem_singleton.2 rfl)).2, rfl⟩
  | value s' =>
    rcases Field.ofJson_cases hf with ⟨_, he, _⟩ | ⟨s, he, hna, hr⟩
    · subst he
      cases hs
    · subst he
      obtain ⟨hnb, hback⟩ := StrokeStyle.ofJson_toJson hna hr (Field.value.inj hs) ha
      simp only [Field.toJson_value, Field.ofJson, bind_eq_ok_iff]
      refine ⟨none, hnb, ?_⟩
      simp only [bind_eq_ok_iff, pure_eq_ok_iff]
      exact ⟨s', hback, rfl⟩

/-! ## Composite shapes -/

theorem Field.optional_toJson {α : Type} {read : Json → Checked α} {toJson : α → Json}
    (h : ReadsBack read toJson) {key : String} {raw? : Option Json} {f? f?' : Option (Field α)}
    (hf : readOptional (fun raw => (Field.ofJson read raw).inMember key) raw? = .ok f?)
    (hs : f?.map (Field.respell Alias.blank) = f?'.map (Field.respell Alias.blank))
    (ha : ∀ ref ∈ (f?'.map Field.aliases).getD [], ref.Spelled) :
    readOptional (fun raw => (Field.ofJson read raw).inMember key)
      (f?'.map (Field.toJson toJson)) = .ok f?' := by
  cases f?' with
  | none => rfl
  | some f' =>
    obtain ⟨f, he, hff⟩ := Option.map_eq_some_iff.1 hs
    subst he
    cases raw? with
    | none => cases hf
    | some raw =>
      obtain ⟨f, hr, he⟩ := readOptional_some_iff.1 hf
      cases he
      refine readOptional_some_iff.2 ⟨f', ?_, rfl⟩
      rw [Checked.inMember_eq_ok_iff] at hr ⊢
      exact Field.ofJson_toJson h hr hff ha

theorem Shadow.ofJson_toJson {raw : Json} {s s' : Shadow} (h : Shadow.ofJson raw = .ok s)
    (hs : s.respell Alias.blank = s'.respell Alias.blank)
    (ha : ∀ ref ∈ s'.aliases, ref.Spelled) : Shadow.ofJson s'.toJson = .ok s' := by
  rw [Shadow.toJson_eq]
  simp only [Shadow.ofJson, bind_eq_ok_iff, pure_eq_ok_iff, Json.membersOf_eq_ok_iff,
    Field.required_eq_ok_iff, Field.optional_eq] at h ⊢
  obtain ⟨_, _, inset, _, color, ⟨_, _, h₁⟩, offsetX, ⟨_, _, h₂⟩, offsetY, ⟨_, _, h₃⟩, blur,
    ⟨_, _, h₄⟩, spread, h₅, he⟩ := h
  subst he
  obtain ⟨color', offsetX', offsetY', blur', spread', inset'⟩ := s'
  simp only [Shadow.respell_eq, Shadow.mk.injEq] at hs
  obtain ⟨e₁, e₂, e₃, e₄, e₅, rfl⟩ := hs
  simp only [Shadow.aliases, List.mem_append] at ha
  have b₁ := Field.ofJson_toJson Color.readsBack h₁ e₁ fun ref hr => ha ref (by simp [hr])
  have b₂ := Field.ofJson_toJson Dimension.readsBack h₂ e₂ fun ref hr => ha ref (by simp [hr])
  have b₃ := Field.ofJson_toJson Dimension.readsBack h₃ e₃ fun ref hr => ha ref (by simp [hr])
  have b₄ := Field.ofJson_toJson Dimension.readsBack h₄ e₄ fun ref hr => ha ref (by simp [hr])
  have b₅ := Field.optional_toJson Dimension.readsBack h₅ e₅ fun ref hr => ha ref (by simp [hr])
  refine ⟨_, rfl, inset, ?_, color', ⟨_, rfl, b₁⟩, offsetX', ⟨_, rfl, b₂⟩, offsetY', ⟨_, rfl, b₃⟩,
    blur', ⟨_, rfl, b₄⟩, spread', ?_, rfl⟩
  · cases spread' <;> cases inset <;> rfl
  · rw [← b₅]
    cases spread' <;> cases inset <;> rfl

theorem Border.ofJson_toJson {raw : Json} {b b' : Border} (h : Border.ofJson raw = .ok b)
    (hs : b.respell Alias.blank = b'.respell Alias.blank)
    (ha : ∀ ref ∈ b'.aliases, ref.Spelled) : Border.ofJson b'.toJson = .ok b' := by
  rw [Border.toJson_eq]
  simp only [Border.ofJson, bind_eq_ok_iff, pure_eq_ok_iff, Json.membersOf_eq_ok_iff,
    Field.required_eq_ok_iff] at h ⊢
  obtain ⟨_, _, color, ⟨_, _, h₁⟩, width, ⟨_, _, h₂⟩, style, ⟨_, _, h₃⟩, he⟩ := h
  subst he
  obtain ⟨color', width', style'⟩ := b'
  simp only [Border.respell_eq, Border.mk.injEq] at hs
  obtain ⟨e₁, e₂, e₃⟩ := hs
  simp only [Border.aliases, List.mem_append] at ha
  have b₁ := Field.ofJson_toJson Color.readsBack h₁ e₁ fun ref hr => ha ref (by simp [hr])
  have b₂ := Field.ofJson_toJson Dimension.readsBack h₂ e₂ fun ref hr => ha ref (by simp [hr])
  have b₃ := StrokeStyle.ofJson_toJson_field h₃ e₃ fun ref hr => ha ref (.inr hr)
  exact ⟨_, rfl, color', ⟨_, rfl, b₁⟩, width', ⟨_, rfl, b₂⟩, style', ⟨_, rfl, b₃⟩, rfl⟩

theorem Typography.ofJson_toJson {raw : Json} {t t' : Typography}
    (h : Typography.ofJson raw = .ok t) (hs : t.respell Alias.blank = t'.respell Alias.blank)
    (ha : ∀ ref ∈ t'.aliases, ref.Spelled) : Typography.ofJson t'.toJson = .ok t' := by
  simp only [Typography.ofJson, bind_eq_ok_iff, pure_eq_ok_iff, Json.membersOf_eq_ok_iff,
    Field.required_eq_ok_iff] at h ⊢
  obtain ⟨_, _, family, ⟨_, _, h₁⟩, size, ⟨_, _, h₂⟩, weight, ⟨_, _, h₃⟩, height, ⟨_, _, h₄⟩,
    spacing, ⟨_, _, h₅⟩, he⟩ := h
  subst he
  obtain ⟨family', size', weight', height', spacing'⟩ := t'
  simp only [Typography.respell_eq, Typography.mk.injEq] at hs
  obtain ⟨e₁, e₂, e₃, e₄, e₅⟩ := hs
  simp only [Typography.aliases, List.mem_append] at ha
  have b₁ := Field.ofJson_toJson FontFamily.readsBack h₁ e₁ fun ref hr => ha ref (by simp [hr])
  have b₂ := Field.ofJson_toJson Dimension.readsBack h₂ e₂ fun ref hr => ha ref (by simp [hr])
  have b₃ := Field.ofJson_toJson Number.readsBack_fontWeight h₃ e₃ fun ref hr =>
    ha ref (by simp [hr])
  have b₄ := Field.ofJson_toJson Number.readsBack h₄ e₄ fun ref hr => ha ref (by simp [hr])
  have b₅ := Field.ofJson_toJson Dimension.readsBack h₅ e₅ fun ref hr => ha ref (by simp [hr])
  exact ⟨_, rfl, family', ⟨_, rfl, b₁⟩, size', ⟨_, rfl, b₂⟩, weight', ⟨_, rfl, b₃⟩,
    height', ⟨_, rfl, b₄⟩, spacing', ⟨_, rfl, b₅⟩, rfl⟩

theorem Transition.ofJson_toJson {raw : Json} {t t' : Transition}
    (h : Transition.ofJson raw = .ok t) (hs : t.respell Alias.blank = t'.respell Alias.blank)
    (ha : ∀ ref ∈ t'.aliases, ref.Spelled) : Transition.ofJson t'.toJson = .ok t' := by
  simp only [Transition.ofJson, bind_eq_ok_iff, pure_eq_ok_iff, Json.membersOf_eq_ok_iff,
    Field.required_eq_ok_iff] at h ⊢
  obtain ⟨_, _, duration, ⟨_, _, h₁⟩, delay, ⟨_, _, h₂⟩, timing, ⟨_, _, h₃⟩, he⟩ := h
  subst he
  obtain ⟨duration', delay', timing'⟩ := t'
  simp only [Transition.respell_eq, Transition.mk.injEq] at hs
  obtain ⟨e₁, e₂, e₃⟩ := hs
  simp only [Transition.aliases, List.mem_append] at ha
  have b₁ := Field.ofJson_toJson Duration.readsBack h₁ e₁ fun ref hr => ha ref (by simp [hr])
  have b₂ := Field.ofJson_toJson Duration.readsBack h₂ e₂ fun ref hr => ha ref (by simp [hr])
  have b₃ := Field.ofJson_toJson CubicBezier.readsBack h₃ e₃ fun ref hr => ha ref (by simp [hr])
  exact ⟨_, rfl, duration', ⟨_, rfl, b₁⟩, delay', ⟨_, rfl, b₂⟩, timing', ⟨_, rfl, b₃⟩, rfl⟩

theorem GradientStop.ofJson_toJson {raw : Json} {s s' : GradientStop}
    (h : GradientStop.ofJson raw = .ok s) (hs : s.respell Alias.blank = s'.respell Alias.blank)
    (ha : ∀ ref ∈ s'.aliases, ref.Spelled) : GradientStop.ofJson s'.toJson = .ok s' := by
  simp only [GradientStop.ofJson, bind_eq_ok_iff, pure_eq_ok_iff, Json.membersOf_eq_ok_iff,
    Field.required_eq_ok_iff] at h ⊢
  obtain ⟨_, _, color, ⟨_, _, h₁⟩, position, ⟨_, _, h₂⟩, he⟩ := h
  subst he
  obtain ⟨color', position'⟩ := s'
  simp only [GradientStop.respell_eq, GradientStop.mk.injEq] at hs
  simp only [GradientStop.aliases, List.mem_append] at ha
  have b₁ := Field.ofJson_toJson Color.readsBack h₁ hs.1 fun ref hr => ha ref (.inl hr)
  have b₂ := Field.ofJson_toJson (Number.readsBack_within _ _ _) h₂ hs.2 fun ref hr =>
    ha ref (.inr hr)
  exact ⟨_, rfl, color', ⟨_, rfl, b₁⟩, position', ⟨_, rfl, b₂⟩, rfl⟩

/-! ## Whole values -/

theorem Shadow.layersOfJson_toJson {raw : Json} {layers layers' : OneOrList Shadow}
    (h : Shadow.layersOfJson raw = .ok layers)
    (hs : (Literal.shadow layers).shape = (Literal.shadow layers').shape)
    (ha : ∀ ref ∈ (Literal.shadow layers').aliases, ref.Spelled) :
    Alias.ofJson? (Literal.shadow layers').toJson = .ok none ∧
      Shadow.layersOfJson (Literal.shadow layers').toJson = .ok layers' := by
  unfold Shadow.layersOfJson at h
  split at h
  · cases h
  · simp only [bind_eq_ok_iff, pure_eq_ok_iff] at h
    obtain ⟨ss, hss, hl⟩ := h
    subst hl
    cases layers' with
    | one s => simp [Literal.shape] at hs
    | many ss' =>
      simp only [Literal.shape, Literal.respell_layers, Literal.shadow.injEq,
        OneOrList.many.injEq] at hs
      have hback := mapM_toJson_of_shape (p := fun s => ∀ ref ∈ s.aliases, ref.Spelled)
        (fun _ _ _ => Shadow.ofJson_toJson) hss hs
        fun s hs ref hr => ha ref (List.mem_flatMap.2 ⟨s, hs, hr⟩)
      have hne := ne_nil_of_mapM_eq_ok hss (List.cons_ne_nil _ _) hs Shadow.toJson
      obtain ⟨y, ys, hys⟩ := List.exists_cons_of_ne_nil hne
      rw [Literal.toJson_layers]
      rw [hys] at hback ⊢
      refine ⟨rfl, ?_⟩
      simp only [Shadow.layersOfJson, hback]
      rfl
  · simp only [bind_eq_ok_iff, pure_eq_ok_iff] at h
    obtain ⟨s, hr, hl⟩ := h
    subst hl
    cases layers' with
    | many ss => simp [Literal.shape] at hs
    | one s' =>
      simp only [Literal.shape, Literal.respell_layer, Literal.shadow.injEq,
        OneOrList.one.injEq] at hs
      have hback := Shadow.ofJson_toJson hr hs fun ref hr =>
        ha ref (by simpa [Literal.aliases, OneOrList.toList] using hr)
      show Alias.ofJson? s'.toJson = _ ∧ Shadow.layersOfJson s'.toJson = _
      rw [Shadow.toJson_eq] at hback ⊢
      refine ⟨rfl, ?_⟩
      simp only [Shadow.layersOfJson, hback]
      rfl

theorem GradientStop.listOfJson_toJson {raw : Json} {ss ss' : List GradientStop}
    (h : GradientStop.listOfJson raw = .ok ss)
    (hs : ss.map (GradientStop.respell Alias.blank) = ss'.map (GradientStop.respell Alias.blank))
    (ha : ∀ ref ∈ ss'.flatMap GradientStop.aliases, ref.Spelled) :
    Alias.ofJson? (Literal.gradient ss').toJson = .ok none ∧
      GradientStop.listOfJson (Literal.gradient ss').toJson = .ok ss' := by
  unfold GradientStop.listOfJson at h
  split at h
  · have hback := mapM_toJson_of_shape (p := fun s => ∀ ref ∈ s.aliases, ref.Spelled)
      (fun _ _ _ => GradientStop.ofJson_toJson) h hs
      fun s hs ref hr => ha ref (List.mem_flatMap.2 ⟨s, hs, hr⟩)
    have hne := ne_nil_of_mapM_eq_ok h (List.cons_ne_nil _ _) hs GradientStop.toJson
    obtain ⟨y, ys, hys⟩ := List.exists_cons_of_ne_nil hne
    rw [Literal.toJson_gradient]
    rw [hys] at hback ⊢
    exact ⟨rfl, hback⟩
  · cases h

/-- What is made of a value that was read. -/
theorem exists_of_make {α : Type} {read : Json → Checked α} {make : α → Literal} {raw : Json}
    {lit : Literal} (h : (do return make (← read raw)) = Except.ok lit) :
    ∃ a, read raw = .ok a ∧ make a = lit := by
  simpa only [bind_eq_ok_iff, pure_eq_ok_iff] using h

theorem ofJson_make {α : Type} {read : Json → Checked α} {make : α → Literal} {raw : Json} {a : α}
    (h : Alias.ofJson? raw = .ok none ∧ read raw = .ok a) :
    Alias.ofJson? raw = .ok none ∧ (do return make (← read raw)) = Except.ok (make a) := by
  refine ⟨h.1, ?_⟩
  rw [h.2]
  rfl

/-- A literal that is read has the type under which it was read. -/
theorem Literal.type_eq_of_ofJson {type : TokenType} {raw : Json} {lit : Literal}
    (h : Literal.ofJson type raw = .ok lit) : lit.type = type := by
  cases type <;> obtain ⟨a, -, he⟩ := exists_of_make h <;> subst he <;> rfl

/-- A literal of the shape that was read is no alias, and it is read again under the same type. -/
theorem Literal.ofJson_toJson {type : TokenType} {raw : Json} {lit lit' : Literal}
    (hna : Alias.ofJson? raw = .ok none) (h : Literal.ofJson type raw = .ok lit)
    (hs : lit.shape = lit'.shape) (ha : ∀ ref ∈ lit'.aliases, ref.Spelled) :
    Alias.ofJson? lit'.toJson = .ok none ∧ Literal.ofJson type lit'.toJson = .ok lit' := by
  have ht : type = lit'.type := by
    have htype := congrArg Literal.type hs
    rw [Literal.shape, Literal.shape, Literal.type_respell, Literal.type_respell] at htype
    exact (Literal.type_eq_of_ofJson h).symm.trans htype
  subst ht
  cases lit' with
  | color c =>
    obtain ⟨a, hr, he⟩ := exists_of_make h
    subst he
    cases Literal.color.inj hs
    exact ofJson_make (Color.readsBack raw c hna hr)
  | dimension d =>
    obtain ⟨a, hr, he⟩ := exists_of_make h
    subst he
    cases Literal.dimension.inj hs
    exact ofJson_make (Dimension.readsBack raw d hna hr)
  | duration d =>
    obtain ⟨a, hr, he⟩ := exists_of_make h
    subst he
    cases Literal.duration.inj hs
    exact ofJson_make (Duration.readsBack raw d hna hr)
  | number n =>
    obtain ⟨a, hr, he⟩ := exists_of_make h
    subst he
    cases Literal.number.inj hs
    exact ofJson_make (Number.readsBack raw n hna hr)
  | fontFamily f =>
    obtain ⟨a, hr, he⟩ := exists_of_make h
    subst he
    cases Literal.fontFamily.inj hs
    exact ofJson_make (FontFamily.readsBack raw f hna hr)
  | fontWeight n =>
    obtain ⟨a, hr, he⟩ := exists_of_make h
    subst he
    cases Literal.fontWeight.inj hs
    exact ofJson_make (Number.readsBack_fontWeight raw n hna hr)
  | cubicBezier b =>
    obtain ⟨a, hr, he⟩ := exists_of_make h
    subst he
    cases Literal.cubicBezier.inj hs
    exact ofJson_make (CubicBezier.readsBack raw b hna hr)
  | strokeStyle s =>
    obtain ⟨a, hr, he⟩ := exists_of_make h
    subst he
    exact ofJson_make (StrokeStyle.ofJson_toJson hna hr (Literal.strokeStyle.inj hs) ha)
  | shadow layers =>
    obtain ⟨a, hr, he⟩ := exists_of_make h
    subst he
    exact ofJson_make (Shadow.layersOfJson_toJson hr hs ha)
  | border b =>
    obtain ⟨a, hr, he⟩ := exists_of_make h
    subst he
    exact ofJson_make ⟨congrArg Alias.ofJson? b.toJson_eq,
      Border.ofJson_toJson hr (Literal.border.inj hs) ha⟩
  | typography t =>
    obtain ⟨a, hr, he⟩ := exists_of_make h
    subst he
    exact ofJson_make ⟨rfl, Typography.ofJson_toJson hr (Literal.typography.inj hs) ha⟩
  | transition t =>
    obtain ⟨a, hr, he⟩ := exists_of_make h
    subst he
    exact ofJson_make ⟨rfl, Transition.ofJson_toJson hr (Literal.transition.inj hs) ha⟩
  | gradient ss =>
    obtain ⟨a, hr, he⟩ := exists_of_make h
    subst he
    simp only [Literal.shape, Literal.respell_gradient, Literal.gradient.injEq] at hs
    exact ofJson_make (GradientStop.listOfJson_toJson hr hs ha)

/-- What is read as a value is an alias, or a literal of the type. -/
theorem TokenValue.ofJson_cases {type : Option TokenType} {raw : Json} {v : TokenValue}
    (h : TokenValue.ofJson type raw = .ok v) : (∃ ref, v = .aliasTo ref ∧ ref.Spelled) ∨
      ∃ t lit, type = some t ∧ v = .literal lit ∧ Alias.ofJson? raw = .ok none ∧
        Literal.ofJson t raw = .ok lit := by
  simp only [TokenValue.ofJson, bind_eq_ok_iff] at h
  obtain ⟨alias?, ha, h⟩ := h
  cases alias? with
  | some ref =>
    simp only [pure_eq_ok_iff] at h
    exact .inl ⟨ref, h.symm, Alias.spelled_of_ofJson? ha⟩
  | none =>
    cases type with
    | none => cases h
    | some t =>
      simp only [bind_eq_ok_iff, pure_eq_ok_iff] at h
      obtain ⟨lit, hl, h⟩ := h
      exact .inr ⟨t, lit, rfl, h.symm, ha, hl⟩

theorem TokenValue.ofJson_toJson_aliasTo {type : Option TokenType} {ref : Alias} (h : ref.Spelled) :
    TokenValue.ofJson type (TokenValue.aliasTo ref).toJson = .ok (.aliasTo ref) := by
  simp only [TokenValue.ofJson, bind_eq_ok_iff]
  exact ⟨some ref, h.2, rfl⟩

/-- A literal reads back if it has the shape of one that was read, and its aliases can be read. -/
theorem TokenValue.ofJson_toJson_literal {type : Option TokenType} {raw : Json} {lit lit' : Literal}
    (h : TokenValue.ofJson type raw = .ok (.literal lit)) (hs : lit.shape = lit'.shape)
    (ha : ∀ ref ∈ lit'.aliases, ref.Spelled) :
    TokenValue.ofJson type (TokenValue.literal lit').toJson = .ok (.literal lit') := by
  rcases TokenValue.ofJson_cases h with ⟨_, he, _⟩ | ⟨t, lit₀, ht, he, hna, hl⟩
  · cases he
  · cases he
    subst ht
    obtain ⟨hnb, hback⟩ := Literal.ofJson_toJson hna hl hs ha
    simp only [TokenValue.ofJson, bind_eq_ok_iff]
    refine ⟨none, hnb, ?_⟩
    simp only [bind_eq_ok_iff, pure_eq_ok_iff]
    exact ⟨lit', hback, rfl⟩

/--
**A value reads back.** What a reader gives for a value, it gives again for what
is written for it, under the same type.
-/
theorem TokenValue.ofJson_toJson {type : Option TokenType} {raw : Json} {v : TokenValue}
    (h : TokenValue.ofJson type raw = .ok v) : TokenValue.ofJson type v.toJson = .ok v := by
  cases v with
  | aliasTo ref =>
    exact TokenValue.ofJson_toJson_aliasTo
      (TokenValue.spelled_of_ofJson h (List.mem_singleton.2 rfl))
  | literal lit =>
    exact TokenValue.ofJson_toJson_literal h rfl fun ref hr => TokenValue.spelled_of_ofJson h hr

/-- A literal that is read has the type under which it was read. -/
theorem TokenValue.type_eq_of_ofJson {type : Option TokenType} {raw : Json} {lit : Literal}
    (h : TokenValue.ofJson type raw = .ok (.literal lit)) : type = some lit.type := by
  rcases TokenValue.ofJson_cases h with ⟨_, he, _⟩ | ⟨t, lit', ht, he, _, hl⟩
  · cases he
  · cases he
    rw [ht, Literal.type_eq_of_ofJson hl]

end DesignTokens
