/-
What replacing local references keeps. A value without any stays as it is, and
so does a document all of whose values are such; and where no object of a
document repeats a key, none does after its values have been expanded, for
what is put in comes from the document itself.
-/
import DesignTokens.Document.Expansion
import DesignTokens.Proofs.Json.WellFormed
import DesignTokens.Proofs.Outcome

namespace DesignTokens

/-! ## Values without references -/

namespace Expansion

section

variable {ε : Type} {follow : String → Except ε Json}

mutual

theorem expandWith_eq_self : (v : Json) → targets v = [] → expandWith follow v = .ok v
  | .object ms, h => by
    rw [targets] at h
    rw [expandWith]
    split at h
    · cases h
    · simp only [expandMembers_eq_self ms h]
      rfl
  | .array items, h => by
    rw [expandWith, expandItems_eq_self items h]
    rfl
  | .null, _ | .bool _, _ | .number _, _ | .string _, _ => rfl

theorem expandItems_eq_self : (vs : List Json) → targetsOfItems vs = [] →
    expandItems follow vs = .ok vs
  | [], _ => rfl
  | v :: vs, h => by
    obtain ⟨hv, hvs⟩ := List.append_eq_nil_iff.1 h
    rw [expandItems, expandWith_eq_self v hv, expandItems_eq_self vs hvs]
    rfl

theorem expandMembers_eq_self : (ms : List (String × Json)) → targetsOfMembers ms = [] →
    expandMembers follow ms = .ok ms
  | [], _ => rfl
  | (k, v) :: ms, h => by
    obtain ⟨hv, hms⟩ := List.append_eq_nil_iff.1 h
    rw [expandMembers, expandWith_eq_self v hv, expandMembers_eq_self ms hms]
    rfl

end

end

theorem expand_eq_self {doc v : Json} (h : targets v = []) : expand doc v = .ok v :=
  expandWith_eq_self v h

/-- Members stay if the own value is the one that is there and each child stays. -/
theorem expandChildren_eq_self {doc : Json} {place : Pointer.Path} {own : Option Json}
    {ms : List (String × Json)} (hown : ∀ v, (Key.value, v) ∈ ms → own = some v)
    (hc : ∀ k v, (k, v) ∈ ms → Name.isChild k → expandEntry doc (place ++ [k]) v = pure (some v)) :
    expandChildren doc place own ms = pure ms := by
  induction ms with
  | nil => rfl
  | cons m ms ih =>
    obtain ⟨k, v⟩ := m
    have hrest := ih (fun v hv => hown v (List.mem_cons_of_mem _ hv))
      fun k v hv => hc k v (List.mem_cons_of_mem _ hv)
    rw [expandChildren, hrest]
    by_cases hk : k = Key.value
    · subst hk
      rw [if_pos rfl, hown v (List.mem_cons_self ..)]
      rfl
    · rw [if_neg hk]
      by_cases hch : Name.isChild k
      · rw [if_pos hch, hc k v (List.mem_cons_self ..) hch]
        rfl
      · rw [if_neg hch]
        rfl

/-! ## Keys stay distinct -/

mutual

theorem wellFormed_expandWith {ε : Type} {follow : String → Except ε Json}
    (hf : ∀ target v, follow target = .ok v → v.WellFormed) :
    (v : Json) → v.WellFormed → ∀ w, expandWith follow v = .ok w → w.WellFormed
  | .object ms, h, w, hw => by
    rw [expandWith] at hw
    split at hw
    · exact hf _ _ hw
    · rw [Outcome.bind_eq_ok_iff] at hw
      obtain ⟨ms', hms, hw⟩ := hw
      cases hw
      obtain ⟨hk, hm⟩ := wellFormed_expandMembers hf ms h.2 ms' hms
      exact ⟨hk ▸ h.1, hm⟩
  | .array items, h, w, hw => by
    rw [expandWith, Outcome.bind_eq_ok_iff] at hw
    obtain ⟨items', hi, hw⟩ := hw
    cases hw
    exact wellFormed_expandItems hf items h items' hi
  | .null, _, _, hw | .bool _, _, _, hw | .number _, _, _, hw | .string _, _, _, hw => by
    cases hw
    trivial

theorem wellFormed_expandItems {ε : Type} {follow : String → Except ε Json}
    (hf : ∀ target v, follow target = .ok v → v.WellFormed) :
    (vs : List Json) → Json.WellFormedItems vs →
    ∀ ws, expandItems follow vs = .ok ws → Json.WellFormedItems ws
  | [], _, ws, hw => by
    cases hw
    trivial
  | v :: vs, h, ws, hw => by
    rw [expandItems, Outcome.bind_eq_ok_iff] at hw
    obtain ⟨w, hv, hw⟩ := hw
    rw [Outcome.bind_eq_ok_iff] at hw
    obtain ⟨ws', hvs, hw⟩ := hw
    cases hw
    exact ⟨wellFormed_expandWith hf v h.1 w hv, wellFormed_expandItems hf vs h.2 ws' hvs⟩

theorem wellFormed_expandMembers {ε : Type} {follow : String → Except ε Json}
    (hf : ∀ target v, follow target = .ok v → v.WellFormed) :
    (ms : List (String × Json)) → Json.WellFormedMembers ms →
    ∀ ns, expandMembers follow ms = .ok ns →
      Dict.keys ns = Dict.keys ms ∧ Json.WellFormedMembers ns
  | [], _, ns, hn => by
    cases hn
    exact ⟨rfl, trivial⟩
  | (k, v) :: ms, h, ns, hn => by
    rw [expandMembers, Outcome.bind_eq_ok_iff] at hn
    obtain ⟨w, hv, hn⟩ := hn
    rw [Outcome.bind_eq_ok_iff] at hn
    obtain ⟨ns', hms, hn⟩ := hn
    cases hn
    obtain ⟨hk, hm⟩ := wellFormed_expandMembers hf ms h.2 ns' hms
    exact ⟨by rw [Dict.keys_cons, Dict.keys_cons, hk], wellFormed_expandWith hf v h.1 w hv, hm⟩

end

section

variable {doc : Json} (hdoc : doc.WellFormed)

include hdoc

/-- The induction is on the targets that may still be followed. -/
theorem wellFormed_follow {untried chain : List String} {target : String} {v : Json}
    (h : follow doc untried chain target = .ok v) : v.WellFormed := by
  rw [follow] at h
  split at h
  · next hu =>
    have hlt := length_without_lt hu
    split at h
    · cases h
    · next found hfound =>
      refine wellFormed_expandWith (fun t w hw => ?_) found (hdoc.of_atFragment hfound) v h
      exact wellFormed_follow hw
  · cases h
termination_by untried.length

theorem wellFormed_expand {v w : Json} (hv : v.WellFormed) (h : expand doc v = .ok w) :
    w.WellFormed :=
  wellFormed_expandWith (fun _ _ hw => wellFormed_follow hdoc hw) v hv w h

end

mutual

theorem wellFormed_expandEntry {doc : Json} (hdoc : doc.WellFormed) (place : Pointer.Path) :
    (v : Json) → v.WellFormed → ∀ w, (expandEntry doc place v).value = some w → w.WellFormed
  | .object ms, h, w, hw => by
    rw [expandEntry] at hw
    split at hw
    · cases hw
      have hnone : ∀ w, (none : Option Json) = some w → w.WellFormed := nofun
      obtain ⟨hs, hm⟩ := wellFormed_expandChildren hdoc place hnone ms h.2
      exact ⟨hs.nodup h.1, hm⟩
    · next raw hraw =>
      split at hw
      · cases hw
      · next v hv =>
        cases hw
        have hown : ∀ w, some v = some w → w.WellFormed := by
          intro w he
          cases he
          exact wellFormed_expand hdoc (Json.WellFormed.of_get? h.2 hraw) hv
        obtain ⟨hs, hm⟩ := wellFormed_expandChildren hdoc place hown ms h.2
        exact ⟨hs.nodup h.1, hm⟩
  | .null, _, _, hw | .bool _, _, _, hw | .number _, _, _, hw | .string _, _, _, hw => by
    cases hw
    trivial
  | .array items, h, _, hw => by
    cases hw
    exact h

theorem wellFormed_expandChildren {doc : Json} (hdoc : doc.WellFormed) (place : Pointer.Path)
    {own : Option Json} (hown : ∀ w, own = some w → w.WellFormed) :
    (ms : List (String × Json)) → Json.WellFormedMembers ms →
    (Dict.keys (expandChildren doc place own ms).value).Sublist (Dict.keys ms) ∧
      Json.WellFormedMembers (expandChildren doc place own ms).value
  | [], _ => ⟨.slnil, trivial⟩
  | (k, v) :: ms, h => by
    obtain ⟨hs, hm⟩ := wellFormed_expandChildren hdoc place hown ms h.2
    rw [expandChildren]
    by_cases hk : k = Key.value
    · rw [if_pos hk]
      cases own with
      | none => exact ⟨hs.cons _, hm⟩
      | some v' => exact ⟨hs.cons_cons _, hown v' rfl, hm⟩
    · rw [if_neg hk]
      by_cases hch : Name.isChild k
      · have he := wellFormed_expandEntry hdoc (place ++ [k]) v h.1
        rw [if_pos hch]
        show (Dict.keys (match (expandEntry doc (place ++ [k]) v).value with
            | some v => (k, v) :: _ | none => _)).Sublist _ ∧
          Json.WellFormedMembers (match (expandEntry doc (place ++ [k]) v).value with
            | some v => (k, v) :: _ | none => _)
        cases hv : (expandEntry doc (place ++ [k]) v).value with
        | none => exact ⟨hs.cons _, hm⟩
        | some w => exact ⟨hs.cons_cons _, he w hv, hm⟩
      · rw [if_neg hch]
        exact ⟨hs.cons_cons _, h.1, hm⟩

end

end Expansion

end DesignTokens
