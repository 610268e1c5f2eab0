/-
Names that may stand in a path. A name that groups and tokens may have is fit
for one, and so is `$root`; and a dotted text of such names is read as the path
that it is, if it stands in braces (`Alias.spelled_of_segments`).
-/
import DesignTokens.Document.Name
import DesignTokens.Proofs.Value.Alias

namespace DesignTokens

/-- The name is one that groups and tokens may have. -/
def Name.Valid (name : String) : Prop := Name.check name = .ok ()

/-- The name can be part of a path: it is not empty, and holds neither braces nor dots. -/
def Name.Fit (name : String) : Prop := name.isEmpty = false ∧ name.toList.find? isForbidden = none

theorem Name.Valid.not_reserved {name : String} (h : Name.Valid name) :
    Name.isReserved name = false := by
  unfold Name.Valid Name.check at h
  split at h
  · cases h
  · split at h
    · cases h
    · next hr => simpa using hr

theorem Name.Valid.ne_root {name : String} (h : Name.Valid name) : name ≠ rootTokenName := by
  intro he
  have hr := h.not_reserved
  rw [he] at hr
  exact absurd hr (by decide)

theorem Name.Valid.fit {name : String} (h : Name.Valid name) : Name.Fit name := by
  unfold Name.Valid Name.check at h
  split at h
  · cases h
  next he =>
  split at h
  · cases h
  split at h
  · cases h
  · next hf => exact ⟨by simpa using he, hf⟩

theorem Name.fit_root : Name.Fit rootTokenName := by
  constructor <;> decide

/-! ## Paths -/

namespace Alias

theorem unbraced?_braced (dotted : String) : unbraced? (braced dotted) = some dotted := by
  simp [unbraced?, toList_braced]

theorem segmentsOf_join {names : List String} (hne : names ≠ [])
    (h : ∀ name ∈ names, Name.Fit name) : segmentsOf (Text.join separator names) = names := by
  refine Text.split_join hne fun name hname hc => ?_
  exact absurd (List.find?_eq_none.1 (h name hname).2 _ hc) (by decide)

theorem mem_joinChars {sep c : Char} {parts : List (List Char)} (h : c ∈ Text.joinChars sep parts) :
    c = sep ∨ ∃ part ∈ parts, c ∈ part := by
  induction parts with
  | nil => cases h
  | cons part parts ih =>
    cases parts with
    | nil => exact .inr ⟨part, List.mem_cons_self .., h⟩
    | cons p ps =>
      rw [Text.joinChars] at h
      · rcases List.mem_append.1 h with hc | h
        · exact .inr ⟨part, List.mem_cons_self .., hc⟩
        rcases List.mem_cons.1 h with hc | h
        · exact .inl hc
        · obtain hc | ⟨q, hq, hc⟩ := ih h
          · exact .inl hc
          · exact .inr ⟨q, List.mem_cons_of_mem _ hq, hc⟩
      · exact List.cons_ne_nil p ps

theorem mem_joinChars_of_mem {sep c : Char} {parts : List (List Char)} {part : List Char}
    (hpart : part ∈ parts) (hc : c ∈ part) : c ∈ Text.joinChars sep parts := by
  induction parts with
  | nil => cases hpart
  | cons first parts ih =>
    cases parts with
    | nil =>
      obtain rfl := List.mem_singleton.1 hpart
      exact hc
    | cons next parts =>
      rw [Text.joinChars]
      · rcases List.mem_cons.1 hpart with rfl | hpart
        · exact List.mem_append_left _ hc
        · exact List.mem_append_right _ (List.mem_cons_of_mem _ (ih hpart))
      · exact List.cons_ne_nil _ _

/-- Each character of a dotted text of fit names is a dot or a character of a name. -/
theorem not_brace_of_segments {dotted : String} (h : ∀ name ∈ segmentsOf dotted, Name.Fit name)
    {c : Char} (hc : c ∈ dotted.toList) : ¬ (c = '{' ∨ c = '}') := by
  rw [← Text.joinChars_splitChars separator dotted.toList] at hc
  rcases mem_joinChars hc with he | ⟨part, hpart, hmem⟩
  · rw [he]
    decide
  · have hfit := h (String.ofList part) (List.mem_map_of_mem hpart)
    have hnot := List.find?_eq_none.1 hfit.2 c (by simpa using hmem)
    simp only [Name.isForbidden, Bool.or_eq_true, decide_eq_true_eq, not_or] at hnot
    exact not_or.2 hnot.1

theorem spelled_of_segments {dotted : String} (h : ∀ name ∈ segmentsOf dotted, Name.Fit name) :
    (path dotted).Spelled := by
  have hne : dotted.isEmpty = false := by
    rw [Bool.eq_false_iff]
    intro he
    rw [String.isEmpty_iff] at he
    subst he
    exact absurd (h "" (by decide)).1 (by decide)
  have hchars : (dotted.toList.any fun c => c = '{' || c = '}') = false := by
    rw [List.any_eq_false]
    intro c hc
    simpa using not_brace_of_segments h hc
  have hparse : parse? (braced dotted) = some (path dotted) := by
    rw [parse?, unbraced?_braced]
    simp only [Option.bind_eq_bind, Option.bind_some, hne, hchars, Bool.or_self,
      Bool.false_eq_true, if_false]
  have hsegments : (segmentsOf dotted).any String.isEmpty = false := by
    rw [List.any_eq_false]
    intro name hname
    rw [(h name hname).1]
    decide
  have hbraced : isBraced (braced dotted) = true := by
    simp [isBraced, toList_braced]
  refine ⟨⟨dotted, rfl⟩, ?_⟩
  show ofJson? (.string (braced dotted)) = _
  simp only [ofJson?, hbraced, ofBraced, hparse, hsegments, Bool.false_eq_true, if_true, if_false]
  rfl

end Alias

end DesignTokens
