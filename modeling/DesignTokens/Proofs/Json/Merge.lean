/-
What merging leaves under a key. An object that is merged into another one says
what is under each of its own keys, together with what was there before, and
leaves the other keys alone.
-/
import DesignTokens.Proofs.Json.WellFormed

namespace DesignTokens.Json

variable {isLeaf : Members → Bool}

/-- Anything but an object replaces what is there before. -/
theorem merge_of_not_object (base : Json) {v : Json} (h : v.isObject = false) :
    merge isLeaf base v = v := by
  cases v with
  | object ms => cases h
  | _ =>
    rw [merge]
    intro _ hv
    cases hv

/-- What is no object is replaced by anything. -/
theorem merge_into_not_object {base : Json} (h : base.isObject = false) (v : Json) :
    merge isLeaf base v = v := by
  cases v with
  | object ms =>
    cases base with
    | object ns => cases h
    | _ => rfl
  | _ =>
    rw [merge]
    intro _ hv
    cases hv

/-- Two objects that are not both leaves are merged key by key. -/
theorem merge_objects {lower upper : Members} (h : ¬ (isLeaf lower ∧ isLeaf upper)) :
    merge isLeaf (.object lower) (.object upper) = .object (mergeMembers isLeaf lower upper) := by
  rw [← Bool.and_eq_true] at h
  rw [merge, if_neg h]

/-- A value merged into what may be there before. -/
def mergeInto (isLeaf : Members → Bool) (base : Option Json) (v : Json) : Json :=
  match base with
  | some u => merge isLeaf u v
  | none => v

/-- An object stays one, whatever it is merged into. -/
theorem exists_members_of_mergeInto (base : Option Json) (ms : Members) :
    ∃ ns, mergeInto isLeaf base (.object ms) = .object ns := by
  cases base with
  | none => exact ⟨ms, rfl⟩
  | some u =>
    cases u with
    | object us =>
      rw [mergeInto, merge]
      split
      · exact ⟨ms, rfl⟩
      · exact ⟨_, rfl⟩
    | _ => exact ⟨ms, rfl⟩

theorem get?_mergeMembers {upper : Members} (hn : (Dict.keys upper).Nodup) (lower : Members)
    (k : String) :
    Dict.get? (mergeMembers isLeaf lower upper) k =
      match Dict.get? upper k with
      | some v => some (mergeInto isLeaf (Dict.get? lower k) v)
      | none => Dict.get? lower k := by
  induction upper generalizing lower with
  | nil => rfl
  | cons m upper ih =>
    obtain ⟨k', v⟩ := m
    rw [Dict.keys_cons, List.nodup_cons] at hn
    rw [mergeMembers, ih hn.2]
    by_cases hk : k' = k
    · subst hk
      rw [Dict.get?_eq_none_iff.2 hn.1, Dict.get?, if_pos rfl]
      show Dict.get? (Dict.insert lower k' (mergeInto isLeaf (Dict.get? lower k') v)) k' = _
      rw [Dict.get?_insert_self]
    · rw [Dict.get?_insert_of_ne _ _ hk, Dict.get?, if_neg hk]

/-! ## Paths of members -/

/-- What a path of member names leads to. -/
def at? (v : Json) : List String → Option Json
  | [] => some v
  | k :: path =>
    match v.member? k with
    | some w => w.at? path
    | none => none

@[simp] theorem at?_nil (v : Json) : v.at? [] = some v := rfl

theorem at?_object_cons (ms : Members) (k : String) (path : List String) :
    (object ms).at? (k :: path) =
      match Dict.get? ms k with
      | some w => w.at? path
      | none => none := rfl

theorem WellFormed.of_at? {path : List String} {v w : Json} (h : v.WellFormed)
    (hw : v.at? path = some w) : w.WellFormed := by
  induction path generalizing v with
  | nil => exact Option.some.inj hw ▸ h
  | cons k path ih =>
    cases v with
    | object ms =>
      rw [at?_object_cons] at hw
      cases hm : Dict.get? ms k with
      | none =>
        rw [hm] at hw
        cases hw
      | some u =>
        rw [hm] at hw
        exact ih (.of_get? h.2 hm) hw
    | _ => cases hw

end DesignTokens.Json
