/-
Aliases as they stand in a document. A text that is read as an alias is the one
by which that alias is shown, and the alias is a path (`Alias.Spelled`).
-/
import DesignTokens.Proofs.Outcome
import DesignTokens.Value.Reader

namespace DesignTokens.Alias

theorem toList_braced (dotted : String) :
    (braced dotted).toList = '{' :: dotted.toList ++ ['}'] := by
  simp [braced, String.toList_append]

theorem eq_braced_of_unbraced? {text inner : String} (h : unbraced? text = some inner) :
    text = braced inner := by
  simp only [unbraced?] at h
  split at h
  · next cs hcs =>
    split at h
    · next inner' hi =>
      cases h
      apply String.toList_inj.1
      rw [toList_braced, hcs, String.toList_ofList, List.cons_append]
      have hc : cs = inner'.reverse ++ ['}'] := by
        rw [← List.reverse_reverse cs, hi, List.reverse_cons]
      rw [hc]
    · cases h
  · cases h

theorem eq_path_of_parse? {text : String} {ref : Alias} (h : parse? text = some ref) :
    ∃ dotted, ref = .path dotted ∧ text = braced dotted := by
  simp only [parse?, Option.bind_eq_bind, Option.bind_eq_some_iff] at h
  obtain ⟨inner, hi, h⟩ := h
  split at h
  · cases h
  · cases h
    exact ⟨inner, rfl, eq_braced_of_unbraced? hi⟩

/-- The alias is a path, and it is read from the text that it is shown by. -/
def Spelled (ref : Alias) : Prop :=
  (∃ dotted, ref = .path dotted) ∧ ofJson? (.string ref.display) = .ok (some ref)

/-- What is read as an alias is a path, and the text is the one it is shown by. -/
theorem eq_path_of_ofJson? {raw : Json} {ref : Alias} (h : ofJson? raw = .ok (some ref)) :
    ∃ dotted, ref = .path dotted ∧ raw = .string (braced dotted) := by
  cases raw with
  | string text =>
    simp only [ofJson?] at h
    split at h
    · simp only [ofBraced] at h
      split at h
      · next dotted hp =>
        split at h
        · cases h
        · cases h
          obtain ⟨dotted', hd, ht⟩ := eq_path_of_parse? hp
          cases hd
          exact ⟨dotted, rfl, congrArg Json.string ht⟩
      · cases h
    · cases h
  | _ => cases h

theorem spelled_of_ofJson? {raw : Json} {ref : Alias} (h : ofJson? raw = .ok (some ref)) :
    ref.Spelled := by
  obtain ⟨dotted, hd, hraw⟩ := eq_path_of_ofJson? h
  subst hd hraw
  exact ⟨⟨dotted, rfl⟩, h⟩

end DesignTokens.Alias
