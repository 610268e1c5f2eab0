/-
The references that a reader of values gives. A document refers to tokens by
paths alone, so every reference in a value that is read is one, as its whole or
in a field of it (`TokenValue.spelled_of_ofJson`). A writer can always spell
them, since it never has to look for the token behind an id.
-/
import DesignTokens.Proofs.Value.Reading

namespace DesignTokens

open Outcome

theorem Field.spelled_of_ofJson {α : Type} {read : Json → Checked α} {raw : Json} {f : Field α}
    (h : Field.ofJson read raw = .ok f) {ref : Alias} (href : ref ∈ f.aliases) : ref.Spelled := by
  rcases Field.ofJson_cases h with ⟨ref', he, hs⟩ | ⟨v, he, _⟩
  · subst he
    exact List.mem_singleton.1 href ▸ hs
  · subst he
    cases href

theorem spelled_of_mapM {α : Type} {read : Json → Checked α} {aliases : α → List Alias}
    (h : ∀ raw a, read raw = .ok a → ∀ ref ∈ aliases a, ref.Spelled) {items : List Json}
    {l : List α} (hl : items.mapM read = .ok l) {ref : Alias} (href : ref ∈ l.flatMap aliases) :
    ref.Spelled := by
  obtain ⟨a, ha, hra⟩ := List.mem_flatMap.1 href
  rw [mapM_eq_ok_iff] at hl
  induction hl with
  | nil => cases ha
  | cons hb _ ih =>
    rcases List.mem_cons.1 ha with he | ha
    · subst he
      exact h _ _ hb ref hra
    · exact ih (List.mem_flatMap.2 ⟨a, ha, hra⟩) ha

theorem StrokeStyle.spelled_of_ofJson {raw : Json} {s : StrokeStyle}
    (h : StrokeStyle.ofJson raw = .ok s) {ref : Alias} (href : ref ∈ s.aliases) : ref.Spelled := by
  unfold StrokeStyle.ofJson at h
  split at h
  · simp only [bind_eq_ok_iff, pure_eq_ok_iff] at h
    obtain ⟨k, -, hs⟩ := h
    subst hs
    cases href
  · simp only [bind_eq_ok_iff, pure_eq_ok_iff] at h
    obtain ⟨_, _, _, _, _, _, ds, hds, _, _, _, _, hs⟩ := h
    subst hs
    refine spelled_of_mapM (fun _ _ hf ref hr => ?_) hds href
    rw [Checked.inMember_eq_ok_iff] at hf
    exact Field.spelled_of_ofJson hf hr

theorem Shadow.spelled_of_ofJson {raw : Json} {s : Shadow} (h : Shadow.ofJson raw = .ok s)
    {ref : Alias} (href : ref ∈ s.aliases) : ref.Spelled := by
  simp only [Shadow.ofJson, bind_eq_ok_iff, pure_eq_ok_iff, Field.required_eq_ok_iff,
    Field.optional_eq] at h
  obtain ⟨ms, _, inset, _, color, ⟨_, _, h₁⟩, offsetX, ⟨_, _, h₂⟩, offsetY, ⟨_, _, h₃⟩, blur,
    ⟨_, _, h₄⟩, spread, h₅, hs⟩ := h
  subst hs
  simp only [Shadow.aliases, List.mem_append] at href
  rcases href with (((hr | hr) | hr) | hr) | hr
  · exact Field.spelled_of_ofJson h₁ hr
  · exact Field.spelled_of_ofJson h₂ hr
  · exact Field.spelled_of_ofJson h₃ hr
  · exact Field.spelled_of_ofJson h₄ hr
  · cases hraw : Dict.get? ms "spread" with
    | none =>
      rw [hraw] at h₅
      cases h₅
      cases hr
    | some raw =>
      rw [hraw] at h₅
      obtain ⟨f, hf, he⟩ := readOptional_some_iff.1 h₅
      subst he
      exact Field.spelled_of_ofJson (Checked.inMember_eq_ok_iff.1 hf) hr

theorem Border.spelled_of_ofJson {raw : Json} {b : Border} (h : Border.ofJson raw = .ok b)
    {ref : Alias} (href : ref ∈ b.aliases) : ref.Spelled := by
  simp only [Border.ofJson, bind_eq_ok_iff, pure_eq_ok_iff, Field.required_eq_ok_iff] at h
  obtain ⟨_, _, color, ⟨_, _, h₁⟩, width, ⟨_, _, h₂⟩, style, ⟨_, _, h₃⟩, hb⟩ := h
  subst hb
  simp only [Border.aliases, List.mem_append] at href
  rcases href with (hr | hr) | hr
  · exact Field.spelled_of_ofJson h₁ hr
  · exact Field.spelled_of_ofJson h₂ hr
  · rcases Field.ofJson_cases h₃ with ⟨ref', he, hs⟩ | ⟨v, he, _, hv⟩
    · subst he
      exact List.mem_singleton.1 hr ▸ hs
    · subst he
      exact StrokeStyle.spelled_of_ofJson hv hr

theorem Typography.spelled_of_ofJson {raw : Json} {t : Typography} (h : Typography.ofJson raw = .ok t)
    {ref : Alias} (href : ref ∈ t.aliases) : ref.Spelled := by
  simp only [Typography.ofJson, bind_eq_ok_iff, pure_eq_ok_iff, Field.required_eq_ok_iff] at h
  obtain ⟨_, _, family, ⟨_, _, h₁⟩, size, ⟨_, _, h₂⟩, weight, ⟨_, _, h₃⟩, height, ⟨_, _, h₄⟩,
    spacing, ⟨_, _, h₅⟩, ht⟩ := h
  subst ht
  simp only [Typography.aliases, List.mem_append] at href
  rcases href with (((hr | hr) | hr) | hr) | hr
  · exact Field.spelled_of_ofJson h₁ hr
  · exact Field.spelled_of_ofJson h₂ hr
  · exact Field.spelled_of_ofJson h₃ hr
  · exact Field.spelled_of_ofJson h₄ hr
  · exact Field.spelled_of_ofJson h₅ hr

theorem Transition.spelled_of_ofJson {raw : Json} {t : Transition} (h : Transition.ofJson raw = .ok t)
    {ref : Alias} (href : ref ∈ t.aliases) : ref.Spelled := by
  simp only [Transition.ofJson, bind_eq_ok_iff, pure_eq_ok_iff, Field.required_eq_ok_iff] at h
  obtain ⟨_, _, duration, ⟨_, _, h₁⟩, delay, ⟨_, _, h₂⟩, timing, ⟨_, _, h₃⟩, ht⟩ := h
  subst ht
  simp only [Transition.aliases, List.mem_append] at href
  rcases href with (hr | hr) | hr
  · exact Field.spelled_of_ofJson h₁ hr
  · exact Field.spelled_of_ofJson h₂ hr
  · exact Field.spelled_of_ofJson h₃ hr

theorem GradientStop.spelled_of_ofJson {raw : Json} {s : GradientStop}
    (h : GradientStop.ofJson raw = .ok s) {ref : Alias} (href : ref ∈ s.aliases) :
    ref.Spelled := by
  simp only [GradientStop.ofJson, bind_eq_ok_iff, pure_eq_ok_iff, Field.required_eq_ok_iff] at h
  obtain ⟨_, _, color, ⟨_, _, h₁⟩, position, ⟨_, _, h₂⟩, hs⟩ := h
  subst hs
  rcases List.mem_append.1 href with hr | hr
  · exact Field.spelled_of_ofJson h₁ hr
  · exact Field.spelled_of_ofJson h₂ hr

theorem Literal.spelled_of_ofJson {type : TokenType} {raw : Json} {lit : Literal}
    (h : Literal.ofJson type raw = .ok lit) {ref : Alias} (href : ref ∈ lit.aliases) :
    ref.Spelled := by
  cases type <;> simp only [Literal.ofJson, bind_eq_ok_iff, pure_eq_ok_iff] at h <;>
    obtain ⟨v, hv, hl⟩ := h <;> subst hl
  case transition => exact Transition.spelled_of_ofJson hv href
  case strokeStyle => exact StrokeStyle.spelled_of_ofJson hv href
  case border => exact Border.spelled_of_ofJson hv href
  case typography => exact Typography.spelled_of_ofJson hv href
  case shadow =>
    unfold Shadow.layersOfJson at hv
    split at hv
    · cases hv
    · simp only [bind_eq_ok_iff, pure_eq_ok_iff] at hv
      obtain ⟨ss, hss, he⟩ := hv
      subst he
      exact spelled_of_mapM (fun _ _ hs ref => Shadow.spelled_of_ofJson hs) hss href
    · simp only [bind_eq_ok_iff, pure_eq_ok_iff] at hv
      obtain ⟨s, hs, he⟩ := hv
      subst he
      refine Shadow.spelled_of_ofJson hs ?_
      simpa [Literal.aliases, OneOrList.toList] using href
  case gradient =>
    unfold GradientStop.listOfJson at hv
    split at hv
    · exact spelled_of_mapM (fun _ _ hs ref => GradientStop.spelled_of_ofJson hs) hv href
    · cases hv
  all_goals cases href

/-- Every reference in a value that is read is a path, and can be read again. -/
theorem TokenValue.spelled_of_ofJson {type : Option TokenType} {raw : Json} {v : TokenValue}
    (h : TokenValue.ofJson type raw = .ok v) {ref : Alias} (href : ref ∈ v.aliases) :
    ref.Spelled := by
  simp only [TokenValue.ofJson, bind_eq_ok_iff] at h
  obtain ⟨alias?, ha, h⟩ := h
  cases alias? with
  | some ref' =>
    cases h
    exact List.mem_singleton.1 href ▸ Alias.spelled_of_ofJson? ha
  | none =>
    cases type with
    | none => cases h
    | some t =>
      simp only [bind_eq_ok_iff, pure_eq_ok_iff] at h
      obtain ⟨lit, hl, h⟩ := h
      subst h
      exact Literal.spelled_of_ofJson hl href

end DesignTokens
