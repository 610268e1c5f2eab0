/-
When reading a value succeeds: what must be there is there, and each part of it
is read. An absent member is no fault where it may be absent.
-/
import DesignTokens.Proofs.Value.Alias

namespace DesignTokens

open Outcome

/-! ## Members -/

theorem Checked.inMember_eq_ok_iff {α : Type} {key : String} {x : Checked α} {a : α} :
    x.inMember key = .ok a ↔ x = .ok a := by
  cases x <;> simp [Checked.inMember]

theorem Json.membersOf_eq_ok_iff {what : String} {raw : Json} {ms : Members} :
    Json.membersOf what raw = .ok ms ↔ raw = .object ms := by
  cases raw <;> simp [Json.membersOf, Json.members?]

theorem Json.required_eq_ok_iff {ms : Members} {key : String} {raw : Json} :
    Json.required ms key = .ok raw ↔ Dict.get? ms key = some raw := by
  unfold Json.required
  split <;> simp [*]

theorem Json.nonEmptyItems_eq_ok_iff {key : String} {raw : Json} {items : List Json} :
    Json.nonEmptyItems key raw = .ok items ↔ raw = .array items ∧ items ≠ [] := by
  unfold Json.nonEmptyItems
  split
  · next x xs =>
    simp only [Except.ok.injEq, Json.array.injEq, ne_eq]
    exact ⟨fun h => ⟨h, h ▸ List.cons_ne_nil x xs⟩, And.left⟩
  · next hne =>
    simp only [reduceCtorEq, false_iff, not_and, not_not]
    intro hr
    cases items with
    | nil => rfl
    | cons x xs => exact absurd hr (hne x xs)

theorem Field.required_eq_ok_iff {α : Type} {ms : Members} {key : String}
    {read : Json → Checked α} {f : Field α} :
    Field.required ms key read = .ok f ↔
      ∃ raw, Dict.get? ms key = some raw ∧ Field.ofJson read raw = .ok f := by
  simp only [Field.required, bind_eq_ok_iff, Json.required_eq_ok_iff, Checked.inMember_eq_ok_iff]

theorem Field.ofJson_cases {α : Type} {read : Json → Checked α} {raw : Json} {f : Field α}
    (h : Field.ofJson read raw = .ok f) : (∃ ref, f = .aliasTo ref ∧ ref.Spelled) ∨
      ∃ v, f = .value v ∧ Alias.ofJson? raw = .ok none ∧ read raw = .ok v := by
  simp only [Field.ofJson, bind_eq_ok_iff] at h
  obtain ⟨alias?, ha, h⟩ := h
  cases alias? with
  | some ref =>
    simp only [pure_eq_ok_iff] at h
    exact .inl ⟨ref, h.symm, Alias.spelled_of_ofJson? ha⟩
  | none =>
    simp only [bind_eq_ok_iff, pure_eq_ok_iff] at h
    obtain ⟨v, hv, h⟩ := h
    exact .inr ⟨v, h.symm, ha, hv⟩

/-! ## Members that may be absent -/

/-- Reads a member that may be absent. -/
def readOptional {α : Type} (read : Json → Checked α) : Option Json → Checked (Option α)
  | none => .ok none
  | some raw => (read raw).map some

theorem readOptional_some_iff {α : Type} {read : Json → Checked α} {raw : Json} {a? : Option α} :
    readOptional read (some raw) = .ok a? ↔ ∃ a, read raw = .ok a ∧ some a = a? :=
  map_eq_ok_iff

theorem readOptional_bind {α β : Type} {read : Json → Checked α} {raw? : Option Json}
    {next : Option α → Checked β} :
    (match raw? with
      | none => next none
      | some raw => do next (some (← read raw))) = readOptional read raw? >>= next := by
  cases raw? with
  | none => rfl
  | some raw =>
    show read raw >>= (fun a => next (some a)) = (read raw).map some >>= next
    cases read raw <;> rfl

theorem Field.optional_eq {α : Type} {ms : Members} {key : String} {read : Json → Checked α} :
    Field.optional ms key read =
      readOptional (fun raw => (Field.ofJson read raw).inMember key) (Dict.get? ms key) := by
  unfold Field.optional
  split <;> simp [readOptional, *]

end DesignTokens
