/-
Documents with their values expanded, entry by entry. Where every entry on the
way to a place has a value that can be expanded, or none, the place holds the
same entry as before, expanded (`at?_expandEntry`).

A value that cannot be expanded costs more than its own token. If it is that of
a group, all that is below the group goes with it; if it is that of the root,
no other value is expanded either. `valueAt?_expandValues_iff` says exactly
which values are there in the end.
-/
import Mathlib.Data.List.Infix
import DesignTokens.Proofs.Document.Expansion
import DesignTokens.Proofs.Json.Merge

namespace DesignTokens.Expansion

open Json

/-- The value that the entry at a path of a tree has in place. -/
def valueAt? (tree : Json) (path : List String) : Option Json :=
  (tree.at? path).bind (·.member? Key.value)

/-- The entry at a path has a value that cannot be expanded. -/
def Spoiled (doc tree : Json) (path : List String) : Prop :=
  ∃ raw e, valueAt? tree path = some raw ∧ expand doc raw = .error e

instance (doc tree : Json) (path : List String) : Decidable (Spoiled doc tree path) :=
  match hraw : valueAt? tree path with
  | none => isFalse fun ⟨_, _, h, _⟩ => nomatch hraw.symm.trans h
  | some raw =>
    match hw : expand doc raw with
    | .error e => isTrue ⟨raw, e, hraw, hw⟩
    | .ok _ => isFalse fun ⟨_, _, h, he⟩ =>
      nomatch (Option.some.inj (hraw.symm.trans h) ▸ hw).symm.trans he

theorem valueAt?_object_cons (ms : Members) (k : String) (path : List String) :
    valueAt? (.object ms) (k :: path) = (Dict.get? ms k).bind (valueAt? · path) := by
  rw [valueAt?, at?_object_cons]
  cases Dict.get? ms k <;> rfl

theorem spoiled_object_cons {doc : Json} {ms : Members} {k : String} {path : List String} :
    Spoiled doc (.object ms) (k :: path) ↔
      ∃ v, Dict.get? ms k = some v ∧ Spoiled doc v path := by
  rw [Spoiled, valueAt?_object_cons]
  cases Dict.get? ms k with
  | none => simp
  | some v => simp [Spoiled]

theorem Spoiled.exists_members {doc tree : Json} {path : List String}
    (h : Spoiled doc tree path) : ∃ ms, tree = .object ms := by
  obtain ⟨raw, _, hraw, _⟩ := h
  cases tree with
  | object ms => exact ⟨ms, rfl⟩
  | _ => cases path <;> cases hraw

/-! ## Members -/

/-- What becomes of a member of an entry whose own value is given. -/
def expandMember (doc : Json) (place : Pointer.Path) (own : Option Json) (k : String)
    (v : Json) : Reading (Option Json) :=
  if k = Key.value then pure own
  else if Name.isChild k then expandEntry doc (place ++ [k]) v
  else pure (some v)

section

variable {doc : Json} {place : Pointer.Path} {own : Option Json}

theorem expandChildren_cons (k : String) (v : Json) (ms : Members) :
    expandChildren doc place own ((k, v) :: ms) = (do
      let v ← expandMember doc place own k v
      let ms ← expandChildren doc place own ms
      return (match v with
        | some v => (k, v) :: ms
        | none => ms)) := by
  rw [expandChildren, expandMember]
  split
  · rfl
  · split <;> rfl

theorem value_expandChildren_cons (k : String) (v : Json) (ms : Members) :
    (expandChildren doc place own ((k, v) :: ms)).value =
      match (expandMember doc place own k v).value with
      | some v => (k, v) :: (expandChildren doc place own ms).value
      | none => (expandChildren doc place own ms).value := by
  rw [expandChildren_cons]
  rfl

/-- What is under a key once the members of an entry are expanded. -/
theorem get?_expandChildren {ms : Members} (hn : (Dict.keys ms).Nodup) (k : String) :
    Dict.get? (expandChildren doc place own ms).value k =
      (Dict.get? ms k).bind fun v => (expandMember doc place own k v).value := by
  induction ms with
  | nil => rfl
  | cons m ms ih =>
    obtain ⟨k', v⟩ := m
    rw [Dict.keys_cons, List.nodup_cons] at hn
    have hrest := ih hn.2
    rw [value_expandChildren_cons, Dict.get?]
    by_cases hk : k' = k
    · subst hk
      rw [Dict.get?_eq_none_iff.2 hn.1] at hrest
      rw [if_pos rfl, Option.bind_some]
      cases (expandMember doc place own k' v).value with
      | none => exact hrest
      | some w => exact if_pos rfl
    · rw [if_neg hk, ← hrest]
      cases (expandMember doc place own k' v).value with
      | none => rfl
      | some w => exact if_neg hk

theorem isChild_ne_value {k : String} (h : Name.isChild k) : k ≠ Key.value := by
  rintro rfl
  exact absurd h (by decide)

theorem get?_expandChildren_of_isChild {ms : Members} (hn : (Dict.keys ms).Nodup) {k : String}
    (hk : Name.isChild k) :
    Dict.get? (expandChildren doc place own ms).value k =
      (Dict.get? ms k).bind fun v => (expandEntry doc (place ++ [k]) v).value := by
  rw [get?_expandChildren hn]
  simp only [expandMember, if_neg (isChild_ne_value hk), if_pos hk]

/-- The value under which the members of an entry are expanded is theirs, if they had one. -/
theorem get?_value_expandChildren {ms : Members} (hn : (Dict.keys ms).Nodup) :
    Dict.get? (expandChildren doc place own ms).value Key.value =
      (Dict.get? ms Key.value).bind fun _ => own := by
  rw [get?_expandChildren hn]
  simp only [expandMember, if_true, Reading.value_pure]

end

/-! ## Entries -/

/-- An entry is reported if its own value cannot be expanded; otherwise its members are expanded. -/
theorem expandEntry_object_cases (doc : Json) (place : Pointer.Path) (ms : Members) :
    (∃ raw e, Dict.get? ms Key.value = some raw ∧ expand doc raw = .error e ∧
      expandEntry doc place (.object ms) =
        .withIssue none (place ++ [Key.value]) (.reference e)) ∨
    ∃ own, (∀ raw, Dict.get? ms Key.value = some raw →
        ∃ w, own = some w ∧ expand doc raw = .ok w) ∧
      expandEntry doc place (.object ms) =
        (do return some (.object (← expandChildren doc place own ms))) := by
  rw [expandEntry]
  cases hraw : Dict.get? ms Key.value with
  | none =>
    refine .inr ⟨none, fun raw hraw => ?_, rfl⟩
    cases hraw
  | some raw =>
    cases hw : expand doc raw with
    | error e => exact .inl ⟨raw, e, rfl, hw, by simp only [hw]⟩
    | ok w =>
      refine .inr ⟨some w, fun raw' hraw' => ⟨w, rfl, ?_⟩, by simp only [hw]⟩
      cases hraw'
      exact hw

/-- An entry is left out just if it has a value that cannot be expanded. -/
theorem value_expandEntry_object (doc : Json) (place : Pointer.Path) (ms : Members) :
    (expandEntry doc place (.object ms)).value = none ∧ Spoiled doc (.object ms) [] ∨
      ¬ Spoiled doc (.object ms) [] ∧ ∃ own,
        (expandEntry doc place (.object ms)).value =
          some (.object (expandChildren doc place own ms).value) ∧
        ∀ raw, Dict.get? ms Key.value = some raw → ∃ w, own = some w ∧ expand doc raw = .ok w := by
  rcases expandEntry_object_cases doc place ms with ⟨raw, e, hraw, he, h⟩ | ⟨own, hown, h⟩
  · exact .inl ⟨congrArg Reading.value h, raw, e, hraw, he⟩
  · refine .inr ⟨?_, own, congrArg Reading.value h, hown⟩
    rintro ⟨raw, e, hraw, he⟩
    obtain ⟨w, -, hw⟩ := hown raw hraw
    cases hw.symm.trans he

theorem value_expandEntry_eq_none_iff {doc : Json} {place : Pointer.Path} {v : Json} :
    (expandEntry doc place v).value = none ↔ Spoiled doc v [] := by
  cases v with
  | object ms =>
    rcases value_expandEntry_object doc place ms with ⟨hout, hs⟩ | ⟨hns, own, hout, -⟩
    · exact iff_of_true hout hs
    · rw [hout]
      exact iff_of_false (Option.some_ne_none _) hns
  | _ =>
    refine iff_of_false (Option.some_ne_none _) fun hs => ?_
    obtain ⟨ms, h⟩ := hs.exists_members
    cases h

section

variable {doc : Json} {path : List String} (hnames : ∀ k ∈ path, Name.isChild k)

include hnames

/-- Below an entry whose value cannot be expanded nothing is left. -/
theorem at?_expandEntry_of_spoiled {tree : Json} (htree : tree.WellFormed) (place : Pointer.Path)
    {above : List String} (habove : above <+: path) (hs : Spoiled doc tree above) :
    ((expandEntry doc place tree).value.bind fun out => out.at? path) = none := by
  induction path generalizing tree place above with
  | nil =>
    cases List.prefix_nil.1 habove
    rw [value_expandEntry_eq_none_iff.2 hs]
    rfl
  | cons k path ih =>
    obtain ⟨hk, hnames⟩ := List.forall_mem_cons.1 hnames
    obtain ⟨ms, rfl⟩ := hs.exists_members
    rcases value_expandEntry_object doc place ms with ⟨hout, -⟩ | ⟨hns, own, hout, -⟩
    · rw [hout]
      rfl
    · cases above with
      | nil => exact absurd hs hns
      | cons k' above =>
        obtain ⟨hkk, habove⟩ := List.cons_prefix_cons.1 habove
        obtain ⟨u, hm, hu⟩ := spoiled_object_cons.1 (hkk ▸ hs)
        have hrest := ih hnames (.of_get? htree.2 hm) (place ++ [k]) habove hu
        rw [hout, Option.bind_some, at?_object_cons, get?_expandChildren_of_isChild htree.1 hk,
          hm, Option.bind_some, ← hrest]
        cases (expandEntry doc (place ++ [k]) u).value <;> rfl

/-- Where all values on the way can be expanded, a path leads to what it led to, expanded. -/
theorem at?_expandEntry {tree : Json} (htree : tree.WellFormed) (place : Pointer.Path)
    (hclear : ∀ above, above <+: path → ¬ Spoiled doc tree above) :
    ((expandEntry doc place tree).value.bind fun out => out.at? path) =
      (tree.at? path).bind fun v => (expandEntry doc (place ++ path) v).value := by
  induction path generalizing tree place with
  | nil => simp
  | cons k path ih =>
    obtain ⟨hk, hnames⟩ := List.forall_mem_cons.1 hnames
    cases tree with
    | object ms =>
      rcases value_expandEntry_object doc place ms with ⟨-, hs⟩ | ⟨-, own, hout, -⟩
      · exact absurd hs (hclear [] List.nil_prefix)
      · rw [hout, Option.bind_some, at?_object_cons, get?_expandChildren_of_isChild htree.1 hk,
          at?_object_cons]
        cases hm : Dict.get? ms k with
        | none => rfl
        | some u =>
          have hrest := ih hnames (.of_get? htree.2 hm) (place ++ [k]) fun above ha hs =>
            hclear (k :: above) (List.cons_prefix_cons.2 ⟨rfl, ha⟩)
              (spoiled_object_cons.2 ⟨u, hm, hs⟩)
          rw [List.append_assoc, List.singleton_append] at hrest
          rw [Option.bind_some, ← hrest]
          cases (expandEntry doc (place ++ [k]) u).value <;> rfl
    | _ => rfl

end

/-! ## Documents -/

theorem value_expandValues (doc : Json) (base : Pointer.Path) :
    (expandValues doc base).value = (expandEntry doc base doc).value.getD doc := rfl

theorem exists_members_expandValues (ms : Members) (base : Pointer.Path) :
    ∃ ms', (expandValues (.object ms) base).value = .object ms' := by
  rw [value_expandValues]
  rcases value_expandEntry_object (.object ms) base ms with ⟨hnone, -⟩ | ⟨-, own, hsome, -⟩
  · exact ⟨ms, by rw [hnone, Option.getD_none]⟩
  · exact ⟨_, by rw [hsome, Option.getD_some]⟩

/-- What an entry has in place once it is expanded. -/
theorem member?_value_expandEntry {doc : Json} {place : Pointer.Path} {v out w : Json}
    (hv : v.WellFormed) (hout : (expandEntry doc place v).value = some out) :
    out.member? Key.value = some w ↔
      ∃ raw, v.member? Key.value = some raw ∧ expand doc raw = .ok w := by
  cases v with
  | object ms =>
    rcases value_expandEntry_object doc place ms with ⟨hnone, -⟩ | ⟨-, own, hsome, hown⟩
    · cases hnone.symm.trans hout
    · cases hsome.symm.trans hout
      refine (iff_of_eq (congrArg (· = some w) (get?_value_expandChildren hv.1))).trans ?_
      show _ ↔ ∃ raw, Dict.get? ms Key.value = some raw ∧ _
      cases hraw : Dict.get? ms Key.value with
      | none => simp
      | some raw =>
        obtain ⟨w', rfl, hw'⟩ := hown raw hraw
        simp [hw']
  | _ =>
    cases hout
    refine iff_of_false (Option.some_ne_none _).symm ?_
    rintro ⟨_, h, _⟩
    cases h

/--
A value that can be expanded is there in the end exactly if no entry on the way
to it, its own included, has a value that cannot be. Where that of the root
cannot be, nothing is expanded at all: only a value without references is then
what it should be.
-/
theorem valueAt?_expandValues_iff {doc : Json} {base : Pointer.Path} {path : List String}
    {raw w : Json} (hdoc : doc.WellFormed) (hnames : ∀ k ∈ path, Name.isChild k)
    (hraw : valueAt? doc path = some raw) (hw : expand doc raw = .ok w) :
    valueAt? (expandValues doc base).value path = some w ↔
      (∀ above, above <+: path → ¬ Spoiled doc doc above) ∨ (Spoiled doc doc [] ∧ raw = w) := by
  rw [value_expandValues]
  cases hout : (expandEntry doc base doc).value with
  | none =>
    -- the root itself is spoiled: the document stays as it is
    have hs := value_expandEntry_eq_none_iff.1 hout
    have hnot : ¬ ∀ above, above <+: path → ¬ Spoiled doc doc above := fun h =>
      h [] List.nil_prefix hs
    rw [Option.getD_none, hraw, Option.some.injEq]
    simp only [hnot, hs, true_and, false_or]
  | some out =>
    have hns : ¬ Spoiled doc doc [] := fun hs => by
      rw [value_expandEntry_eq_none_iff.2 hs] at hout
      cases hout
    rw [Option.getD_some]
    simp only [hns, false_and, or_false]
    constructor
    · intro hvalue above habove hs
      have hnone := at?_expandEntry_of_spoiled hnames hdoc base habove hs
      rw [hout, Option.bind_some] at hnone
      rw [valueAt?, hnone] at hvalue
      cases hvalue
    · intro hclear
      have hat := at?_expandEntry hnames hdoc base hclear
      obtain ⟨v, hv, hmember⟩ := Option.bind_eq_some_iff.1 hraw
      rw [hout, Option.bind_some, hv, Option.bind_some] at hat
      cases hentry : (expandEntry doc (base ++ path) v).value with
      | none =>
        obtain ⟨raw', e, hraw', he⟩ := value_expandEntry_eq_none_iff.1 hentry
        cases hmember.symm.trans hraw'
        cases hw.symm.trans he
      | some entry =>
        rw [valueAt?, hat, hentry]
        exact (member?_value_expandEntry (.of_at? hdoc hv) hentry).2 ⟨raw, hmember, hw⟩

/-! ## A number in a group whose own value leads nowhere -/

/-- A reference that leads nowhere in the documents below. -/
def nowhere : Json := .object [(Pointer.refKey, .string "#/nope")]

/-- A group whose own value leads nowhere, around a number. -/
def hollowGroup : Json :=
  .object [("g", .object [(Key.value, nowhere),
    ("ok", .object [(Key.type, .string "number"), (Key.value, .number (.integer 1))])])]

/-- The number expands to itself, and it is lost with the group it is in. -/
theorem hollowGroup_loses_number :
    hollowGroup.WellFormed ∧ (∀ k ∈ ["g", "ok"], Name.isChild k) ∧
    valueAt? hollowGroup ["g", "ok"] = some (.number (.integer 1)) ∧
    expand hollowGroup (.number (.integer 1)) = .ok (.number (.integer 1)) ∧
    (expandValues hollowGroup []).value = .object [] ∧
    valueAt? (expandValues hollowGroup []).value ["g", "ok"] ≠ some (.number (.integer 1)) := by
  refine ⟨?_, by decide, by decide, rfl, by decide +kernel, by decide +kernel⟩
  simp [hollowGroup, nowhere, Json.WellFormed, Json.WellFormedMembers, Key.type, Key.value]

/-- A group with a value, a number that refers to it, and beside them a value that leads nowhere. -/
def hollowBeside : Json :=
  .object [("bad", .object [(Key.value, nowhere)]),
    ("g", .object [(Key.value, .number (.integer 1)),
      ("ok", .object [(Key.value, .object [(Pointer.refKey, .string "#/g/$value")])]),
      ("worse", .object [(Key.value, nowhere)])])]

/-- Neither of the two values that lead nowhere costs the number. -/
theorem hollowBeside_keeps_number :
    (hollowBeside.WellFormed ∧ (∀ k ∈ ["g", "ok"], Name.isChild k) ∧
      valueAt? hollowBeside ["g", "ok"] =
        some (.object [(Pointer.refKey, .string "#/g/$value")]) ∧
      expand hollowBeside (.object [(Pointer.refKey, .string "#/g/$value")]) =
        .ok (.number (.integer 1))) ∧
    Spoiled hollowBeside hollowBeside ["bad"] ∧ Spoiled hollowBeside hollowBeside ["g", "worse"] ∧
    valueAt? (expandValues hollowBeside []).value ["g", "ok"] = some (.number (.integer 1)) := by
  have hdoc : hollowBeside.WellFormed := by
    simp [hollowBeside, nowhere, Json.WellFormed, Json.WellFormedMembers, Key.value]
  have hraw : valueAt? hollowBeside ["g", "ok"] =
      some (.object [(Pointer.refKey, .string "#/g/$value")]) := by decide
  have hw : expand hollowBeside (.object [(Pointer.refKey, .string "#/g/$value")]) =
      .ok (.number (.integer 1)) := by decide +kernel
  have hclear : ∀ above ∈ ["g", "ok"].inits, ¬ Spoiled hollowBeside hollowBeside above := by
    decide +kernel
  refine ⟨⟨hdoc, by decide, hraw, hw⟩, by decide +kernel, by decide +kernel, ?_⟩
  exact (valueAt?_expandValues_iff hdoc (by decide) hraw hw).2
    (.inl fun above h => hclear above ((List.mem_inits _ _).2 h))

end DesignTokens.Expansion
