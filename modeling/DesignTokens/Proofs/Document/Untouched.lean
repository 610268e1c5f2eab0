/-
What replacing references leaves as it was. Values of entries are replaced where
they stand, and an entry whose value cannot be expanded goes as a whole; nothing
else of a document changes, not even the order of its keys (`Edited`).

There is one issue for each entry that goes, and none besides: an entry below one
that goes is not looked at. The issues come in the order in which their entries
stand in the document (`entryPaths`), whatever the order of replacement.
-/
import Mathlib.Data.List.Nodup
import DesignTokens.Proofs.Document.Expanded
import DesignTokens.Proofs.Json.Joined

namespace DesignTokens.Expansion

open Json

/-! ## The entries of a document -/

mutual

/-- The paths of an entry and of all entries below it, in the order of the document. -/
def entryPaths (path : Pointer.Path) : Json → List Pointer.Path
  | .object ms => path :: childPaths path ms
  | _ => [path]

/-- The paths of the entries among members and below them. -/
def childPaths (path : Pointer.Path) : List (String × Json) → List Pointer.Path
  | [] => []
  | (k, v) :: ms =>
    if Name.isChild k then entryPaths (path ++ [k]) v ++ childPaths path ms else childPaths path ms

end

mutual

theorem append_of_mem_entryPaths {path p : Pointer.Path} :
    (tree : Json) → p ∈ entryPaths path tree → ∃ rest, p = path ++ rest
  | .object ms, h => by
    rcases List.mem_cons.1 h with rfl | h
    · exact ⟨[], (List.append_nil _).symm⟩
    · obtain ⟨k, -, rest, rfl⟩ := append_of_mem_childPaths ms h
      exact ⟨k :: rest, rfl⟩
  | .null, h | .bool _, h | .number _, h | .string _, h | .array _, h =>
    ⟨[], by rw [List.mem_singleton.1 h, List.append_nil]⟩

theorem append_of_mem_childPaths {path p : Pointer.Path} :
    (ms : List (String × Json)) → p ∈ childPaths path ms →
    ∃ k ∈ Dict.keys ms, ∃ rest, p = path ++ k :: rest
  | [], h => nomatch h
  | (k, v) :: ms, h => by
    have hrest : p ∈ childPaths path ms → ∃ k' ∈ Dict.keys ((k, v) :: ms), ∃ rest,
        p = path ++ k' :: rest := fun h =>
      let ⟨k', hk', hp⟩ := append_of_mem_childPaths ms h
      ⟨k', List.mem_cons_of_mem _ hk', hp⟩
    rw [childPaths] at h
    split at h
    · rcases List.mem_append.1 h with h | h
      · obtain ⟨rest, rfl⟩ := append_of_mem_entryPaths v h
        exact ⟨k, List.mem_cons_self, rest, by rw [List.append_assoc, List.singleton_append]⟩
      · exact hrest h
    · exact hrest h

end

mutual

/-- Where no object repeats a key, no path comes twice. -/
theorem nodup_entryPaths (path : Pointer.Path) :
    (tree : Json) → tree.WellFormed → (entryPaths path tree).Nodup
  | .object ms, h => by
    refine List.nodup_cons.2 ⟨fun hm => ?_, nodup_childPaths path ms h.1 h.2⟩
    obtain ⟨k, -, rest, he⟩ := append_of_mem_childPaths ms hm
    exact absurd (congrArg List.length he) (by simp)
  | .null, _ | .bool _, _ | .number _, _ | .string _, _ | .array _, _ => List.nodup_singleton _

theorem nodup_childPaths (path : Pointer.Path) : (ms : List (String × Json)) →
    (Dict.keys ms).Nodup → WellFormedMembers ms → (childPaths path ms).Nodup
  | [], _, _ => .nil
  | (k, v) :: ms, hn, h => by
    rw [Dict.keys_cons, List.nodup_cons] at hn
    have hrest := nodup_childPaths path ms hn.2 h.2
    rw [childPaths]
    split
    · refine List.nodup_append.2 ⟨nodup_entryPaths _ v h.1, hrest, fun p hp q hq he => ?_⟩
      obtain ⟨rest, rfl⟩ := append_of_mem_entryPaths v hp
      obtain ⟨k', hk', rest', rfl⟩ := append_of_mem_childPaths ms hq
      rw [List.append_assoc, List.singleton_append] at he
      obtain ⟨rfl, -⟩ := List.cons.inj (List.append_cancel_left he)
      exact hn.1 hk'
    · exact hrest

end

/-! ## Issues -/

theorem issues_expandChildren (doc : Json) (place : Pointer.Path) (own : Option Json)
    (ms : Members) : (expandChildren doc place own ms).issues =
      ms.flatMap fun m => (expandMember doc place own m.1 m.2).issues := by
  induction ms with
  | nil => rfl
  | cons m ms ih =>
    rw [expandChildren_cons, Reading.issues_bind, Reading.issues_bind, ih, List.flatMap_cons]
    exact congrArg _ (List.append_nil _)

theorem issues_expandMember (doc : Json) (place : Pointer.Path) (own : Option Json) (k : String)
    (v : Json) : (expandMember doc place own k v).issues =
      if Name.isChild k then (expandEntry doc (place ++ [k]) v).issues else [] := by
  rw [expandMember]
  by_cases hk : k = Key.value
  · subst hk
    rfl
  · rw [if_neg hk]
    split <;> rfl

mutual

/-- Issues come in the order of their entries; each lies at the value of one. -/
theorem sublist_issues_expandEntry (doc : Json) (place : Pointer.Path) : (tree : Json) →
    ((expandEntry doc place tree).issues.map Issue.path).Sublist
      ((entryPaths place tree).map fun path => path ++ [Key.value])
  | .object ms => by
    rcases expandEntry_object_cases doc place ms with ⟨raw, e, -, -, h⟩ | ⟨own, -, h⟩
    · rw [h]
      exact (List.nil_sublist _).cons_cons _
    · rw [h, Reading.issues_bind, issues_expandChildren]
      refine .cons _ ?_
      rw [Reading.issues_pure, List.append_nil]
      exact sublist_issues_members doc place own ms
  | .null | .bool _ | .number _ | .string _ | .array _ => List.nil_sublist _

theorem sublist_issues_members (doc : Json) (place : Pointer.Path) (own : Option Json) :
    (ms : List (String × Json)) →
    ((ms.flatMap fun m => (expandMember doc place own m.1 m.2).issues).map Issue.path).Sublist
      ((childPaths place ms).map fun path => path ++ [Key.value])
  | [] => .slnil
  | (k, v) :: ms => by
    have hrest := sublist_issues_members doc place own ms
    rw [List.flatMap_cons, List.map_append, issues_expandMember, childPaths]
    split
    · rw [List.map_append]
      exact (sublist_issues_expandEntry doc (place ++ [k]) v).append hrest
    · exact hrest

end

/-- The entry at a path has a value that cannot be expanded, and is the topmost such one there. -/
def Goes (doc tree : Json) (path : List String) : Prop :=
  Spoiled doc tree path ∧ ∀ above, above <+: path → Spoiled doc tree above → above = path

theorem exists_goes {doc tree : Json} {path : List String} (h : Spoiled doc tree path) :
    ∃ above, above <+: path ∧ Goes doc tree above := by
  by_cases hgoes : Goes doc tree path
  · exact ⟨path, List.prefix_rfl, hgoes⟩
  · obtain ⟨above, habove, hs, hne⟩ : ∃ above, above <+: path ∧ Spoiled doc tree above ∧
        above ≠ path := by
      simpa [Goes, h] using hgoes
    have hlt : above.length < path.length :=
      Nat.lt_of_le_of_ne habove.length_le fun hl => hne (habove.eq_of_length hl)
    obtain ⟨top, htop, hgoes⟩ := exists_goes hs
    exact ⟨top, htop.trans habove, hgoes⟩
termination_by path.length

theorem goes_object_nil {doc : Json} {ms : Members} :
    Goes doc (.object ms) [] ↔ Spoiled doc (.object ms) [] :=
  and_iff_left fun _ habove _ => List.prefix_nil.1 habove

/-- Below an entry that stays, what goes is what goes from its children. -/
theorem goes_object_cons {doc : Json} {ms : Members} {k : String} {path : List String}
    (hroot : ¬ Spoiled doc (.object ms) []) :
    Goes doc (.object ms) (k :: path) ↔ ∃ v, Dict.get? ms k = some v ∧ Goes doc v path := by
  constructor
  · rintro ⟨hs, htop⟩
    obtain ⟨v, hv, hs⟩ := spoiled_object_cons.1 hs
    refine ⟨v, hv, hs, fun above habove hs' => ?_⟩
    have he := htop (k :: above) (List.cons_prefix_cons.2 ⟨rfl, habove⟩)
      (spoiled_object_cons.2 ⟨v, hv, hs'⟩)
    exact (List.cons.inj he).2
  · rintro ⟨v, hv, hs, htop⟩
    refine ⟨spoiled_object_cons.2 ⟨v, hv, hs⟩, fun above habove hs' => ?_⟩
    cases above with
    | nil => exact absurd hs' hroot
    | cons k' above =>
      obtain ⟨rfl, hpre⟩ := List.cons_prefix_cons.1 habove
      obtain ⟨v', hv', hs'⟩ := spoiled_object_cons.1 hs'
      cases hv.symm.trans hv'
      rw [htop above hpre hs']

/-- The issues of an entry are those of the entries that go from it, with the reasons for it. -/
theorem mem_issues_expandEntry {doc : Json} {i : Issue} : {tree : Json} → tree.WellFormed →
    {place : Pointer.Path} → (i ∈ (expandEntry doc place tree).issues ↔
      ∃ path raw e, (∀ k ∈ path, Name.isChild k) ∧ Goes doc tree path ∧
        valueAt? tree path = some raw ∧ expand doc raw = .error e ∧
        i = ⟨place ++ path ++ [Key.value], .reference e⟩)
  | .object ms, hwf, place => by
    rcases expandEntry_object_cases doc place ms with ⟨raw, e, hraw, he, h⟩ | ⟨own, hown, h⟩
    · have hs : Spoiled doc (.object ms) [] := ⟨raw, e, hraw, he⟩
      rw [h]
      constructor
      · intro hi
        obtain rfl := List.mem_singleton.1 hi
        exact ⟨[], raw, e, List.forall_mem_nil _, goes_object_nil.2 hs, hraw, he, by simp⟩
      · rintro ⟨path, raw', e', -, hgoes, hraw', he', rfl⟩
        obtain rfl := hgoes.2 [] List.nil_prefix hs
        cases hraw.symm.trans hraw'
        cases he.symm.trans he'
        rw [List.append_nil]
        exact List.mem_singleton.2 rfl
    · have hroot : ¬ Spoiled doc (.object ms) [] := by
        rintro ⟨raw, e, hraw, he⟩
        obtain ⟨w, -, hw⟩ := hown raw hraw
        cases hw.symm.trans he
      rw [h, Reading.issues_bind, Reading.issues_pure, List.append_nil, issues_expandChildren,
        List.mem_flatMap]
      constructor
      · rintro ⟨⟨k, v⟩, hm, hi⟩
        have hlt := sizeOf_lt_of_mem hm
        have hget := Dict.get?_of_mem hwf.1 hm
        rw [issues_expandMember] at hi
        split at hi
        · next hk =>
          obtain ⟨path, raw, e, hnames, hgoes, hraw, he, rfl⟩ :=
            (mem_issues_expandEntry (.of_get? hwf.2 hget)).1 hi
          refine ⟨k :: path, raw, e, List.forall_mem_cons.2 ⟨hk, hnames⟩,
            (goes_object_cons hroot).2 ⟨v, hget, hgoes⟩, ?_, he, by simp⟩
          rw [valueAt?_object_cons, hget]
          exact hraw
        · cases hi
      · rintro ⟨path, raw, e, hnames, hgoes, hraw, he, rfl⟩
        cases path with
        | nil => exact absurd hgoes.1 hroot
        | cons k path =>
          obtain ⟨hk, hnames⟩ := List.forall_mem_cons.1 hnames
          obtain ⟨v, hget, hgoes⟩ := (goes_object_cons hroot).1 hgoes
          have hm := Dict.mem_of_get? hget
          have hlt := sizeOf_lt_of_mem hm
          rw [valueAt?_object_cons, hget] at hraw
          refine ⟨(k, v), hm, ?_⟩
          rw [issues_expandMember, if_pos hk]
          exact (mem_issues_expandEntry (.of_get? hwf.2 hget)).2
            ⟨path, raw, e, hnames, hgoes, hraw, he, by simp⟩
  | .null, _, _ | .bool _, _, _ | .number _, _, _ | .string _, _, _ | .array _, _, _ => by
    refine iff_of_false List.not_mem_nil ?_
    rintro ⟨path, raw, e, -, hgoes, -⟩
    obtain ⟨ms, he⟩ := hgoes.1.exists_members
    cases he

/-! ## Documents -/

/-- An issue lies at the value of the entry at a path. -/
def Reported (base : Pointer.Path) (issues : List Issue) (path : List String) : Prop :=
  ∃ i ∈ issues, i.path = base ++ path ++ [Key.value]

/-- The members of an entry with its value replaced, some children gone, all else as it was. -/
structure EditedMembers (becomes : Json → Json → Prop) (removed : String → Prop)
    (ms ms' : Members) : Prop where
  order : (Dict.keys ms').Sublist (Dict.keys ms)
  kept : ∀ k ∈ Dict.keys ms, k ∈ Dict.keys ms' ↔ ¬ (Name.isChild k ∧ removed k)
  value : ∀ raw, Dict.get? ms Key.value = some raw →
    ∃ w, becomes raw w ∧ Dict.get? ms' Key.value = some w
  other : ∀ k, Name.isChild k = false → k ≠ Key.value → Dict.get? ms' k = Dict.get? ms k

/-- A document with the values of its entries replaced, some entries removed with all that is below
them, and all else as it was. -/
structure Edited (becomes : Json → Json → Prop) (removed : List String → Prop)
    (doc out : Json) : Prop where
  gone : ∀ path v, (∀ k ∈ path, Name.isChild k) → doc.at? path = some v →
    (out.at? path = none ↔ ∃ above, above <+: path ∧ removed above)
  plain : ∀ path v w, (∀ k ∈ path, Name.isChild k) → doc.at? path = some v →
    v.isObject = false → out.at? path = some w → w = v
  members : ∀ path ms w, (∀ k ∈ path, Name.isChild k) → doc.at? path = some (.object ms) →
    out.at? path = some w →
    ∃ ms', w = .object ms' ∧ EditedMembers becomes (fun k => removed (path ++ [k])) ms ms'

section

variable {doc : Json} {place : Pointer.Path} {own : Option Json} {ms : Members}

theorem sublist_keys_expandChildren (doc : Json) (place : Pointer.Path) (own : Option Json)
    (ms : Members) : (Dict.keys (expandChildren doc place own ms).value).Sublist (Dict.keys ms) := by
  induction ms with
  | nil => exact .slnil
  | cons m ms ih =>
    obtain ⟨k, v⟩ := m
    rw [value_expandChildren_cons]
    cases (expandMember doc place own k v).value with
    | none => exact ih.cons _
    | some w => exact ih.cons_cons _

theorem spoiled_singleton {k : String} {v : Json} (hv : Dict.get? ms k = some v) :
    Spoiled doc (.object ms) [k] ↔ Spoiled doc v [] := by
  simp [spoiled_object_cons, hv]

/-- Of the members of an entry only the value and the children change. -/
theorem editedMembers_expandChildren {removed : String → Prop} (hn : (Dict.keys ms).Nodup)
    (hown : ∀ raw, Dict.get? ms Key.value = some raw → ∃ w, own = some w ∧ expand doc raw = .ok w)
    (hremoved : ∀ k, Name.isChild k → (removed k ↔ Spoiled doc (.object ms) [k])) :
    EditedMembers (fun raw w => expand doc raw = .ok w) removed ms
      (expandChildren doc place own ms).value where
  order := sublist_keys_expandChildren doc place own ms
  kept k hk := by
    obtain ⟨v, hv⟩ := Option.isSome_iff_exists.1 (Dict.isSome_get?_iff.2 hk)
    rw [← Dict.isSome_get?_iff, get?_expandChildren hn, hv, Option.bind_some]
    by_cases hc : Name.isChild k
    · have hnone : (expandEntry doc (place ++ [k]) v).value = none ↔ Spoiled doc v [] :=
        value_expandEntry_eq_none_iff
      rw [expandMember, if_neg (isChild_ne_value hc), if_pos hc, hremoved k hc,
        spoiled_singleton hv, ← hnone, Option.isSome_iff_ne_none]
      simp [hc]
    · rw [expandMember]
      split
      · next hvalue =>
        obtain ⟨w, rfl, -⟩ := hown v (hvalue ▸ hv)
        simp [hc]
      · simp [hc]
  value raw hraw := by
    obtain ⟨w, rfl, hw⟩ := hown raw hraw
    exact ⟨w, hw, by rw [get?_value_expandChildren hn, hraw, Option.bind_some]⟩
  other k hc hvalue := by
    rw [get?_expandChildren hn]
    simp [expandMember, hc, hvalue]

end

section

variable {doc : Json} {base : Pointer.Path}

theorem issues_expandValues (doc : Json) (base : Pointer.Path) :
    (expandValues doc base).issues = (expandEntry doc base doc).issues :=
  List.append_nil _

variable (hdoc : doc.WellFormed)

include hdoc

theorem reported_expandValues_iff {path : List String} :
    Reported base (expandValues doc base).issues path ↔
      (∀ k ∈ path, Name.isChild k) ∧ Goes doc doc path := by
  rw [issues_expandValues]
  constructor
  · rintro ⟨i, hi, hpath⟩
    obtain ⟨path', raw, e, hnames, hgoes, -, -, rfl⟩ := (mem_issues_expandEntry hdoc).1 hi
    obtain rfl := List.append_cancel_left (List.append_cancel_right hpath)
    exact ⟨hnames, hgoes⟩
  · rintro ⟨hnames, hgoes⟩
    obtain ⟨raw, e, hraw, he⟩ := hgoes.1
    exact ⟨_, (mem_issues_expandEntry hdoc).2 ⟨path, raw, e, hnames, hgoes, hraw, he, rfl⟩, rfl⟩

theorem exists_reported_iff {path : List String} (hnames : ∀ k ∈ path, Name.isChild k) :
    (∃ above, above <+: path ∧ Reported base (expandValues doc base).issues above) ↔
      ∃ above, above <+: path ∧ Spoiled doc doc above := by
  constructor
  · rintro ⟨above, habove, h⟩
    exact ⟨above, habove, ((reported_expandValues_iff hdoc).1 h).2.1⟩
  · rintro ⟨above, habove, hs⟩
    obtain ⟨top, htop, hgoes⟩ := exists_goes hs
    have hpre := htop.trans habove
    exact ⟨top, hpre, (reported_expandValues_iff hdoc).2
      ⟨fun k hk => hnames k (hpre.subset hk), hgoes⟩⟩

variable (hroot : ¬ Spoiled doc doc [])

include hroot

omit hdoc in
theorem value_expandEntry_of_root :
    (expandEntry doc base doc).value = some (expandValues doc base).value := by
  rw [value_expandValues]
  cases h : (expandEntry doc base doc).value with
  | none => exact absurd (value_expandEntry_eq_none_iff.1 h) hroot
  | some out => rfl

/-- A path on which every value can be expanded leads to what it led to, expanded. -/
theorem at?_expandValues {path : List String} (hnames : ∀ k ∈ path, Name.isChild k)
    (hclear : ∀ above, above <+: path → ¬ Spoiled doc doc above) :
    (expandValues doc base).value.at? path =
      (doc.at? path).bind fun v => (expandEntry doc (base ++ path) v).value := by
  have hat := at?_expandEntry hnames hdoc base hclear
  rwa [value_expandEntry_of_root hroot, Option.bind_some] at hat

theorem at?_expandValues_eq_none_iff {path : List String} {v : Json}
    (hnames : ∀ k ∈ path, Name.isChild k) (hv : doc.at? path = some v) :
    (expandValues doc base).value.at? path = none ↔
      ∃ above, above <+: path ∧ Spoiled doc doc above := by
  constructor
  · intro hnone
    by_contra hclear
    have hclear : ∀ above, above <+: path → ¬ Spoiled doc doc above := fun above habove hs =>
      hclear ⟨above, habove, hs⟩
    rw [at?_expandValues hdoc hroot hnames hclear, hv, Option.bind_some,
      value_expandEntry_eq_none_iff] at hnone
    obtain ⟨raw, e, hraw, he⟩ := hnone
    exact hclear path List.prefix_rfl ⟨raw, e, by rw [valueAt?, hv]; exact hraw, he⟩
  · rintro ⟨above, habove, hs⟩
    have hnone := at?_expandEntry_of_spoiled hnames hdoc base habove hs
    rwa [value_expandEntry_of_root hroot, Option.bind_some] at hnone

/-- What is there in the end is what was there, expanded. -/
theorem exists_at?_of_expandValues {path : List String} {v w : Json}
    (hnames : ∀ k ∈ path, Name.isChild k) (hv : doc.at? path = some v)
    (hw : (expandValues doc base).value.at? path = some w) :
    (expandEntry doc (base ++ path) v).value = some w := by
  have hclear : ∀ above, above <+: path → ¬ Spoiled doc doc above := by
    intro above habove hs
    rw [(at?_expandValues_eq_none_iff hdoc hroot hnames hv).2 ⟨above, habove, hs⟩] at hw
    cases hw
  rwa [at?_expandValues hdoc hroot hnames hclear, hv, Option.bind_some] at hw

/-- What goes from an entry that stays. -/
theorem reported_child_iff {path : List String} {ms : Members} {w : Json}
    (hnames : ∀ k ∈ path, Name.isChild k) (hv : doc.at? path = some (.object ms))
    (hw : (expandValues doc base).value.at? path = some w) {k : String} (hk : Name.isChild k) :
    Reported base (expandValues doc base).issues (path ++ [k]) ↔ Spoiled doc (.object ms) [k] := by
  have hsame : valueAt? doc (path ++ [k]) = valueAt? (.object ms) [k] := by
    rw [valueAt?, at?_append, hv]
    rfl
  have hspoiled : Spoiled doc doc (path ++ [k]) ↔ Spoiled doc (.object ms) [k] := by
    rw [Spoiled, Spoiled, hsame]
  rw [reported_expandValues_iff hdoc, Goes, hspoiled]
  constructor
  · exact fun h => h.2.1
  · refine fun h => ⟨fun k' hk' => ?_, h, fun above habove hs => ?_⟩
    · rcases List.mem_append.1 hk' with hk' | hk'
      · exact hnames k' hk'
      · exact List.mem_singleton.1 hk' ▸ hk
    · refine (List.prefix_concat_iff.1 habove).resolve_right fun hpre => ?_
      rw [(at?_expandValues_eq_none_iff hdoc hroot hnames hv).2 ⟨above, hpre, hs⟩] at hw
      cases hw

/-- The document is edited, and nothing more. -/
theorem edited_expandValues : Edited (fun raw w => expand doc raw = .ok w)
    (Reported base (expandValues doc base).issues) doc (expandValues doc base).value where
  gone path v hnames hv := by
    rw [at?_expandValues_eq_none_iff hdoc hroot hnames hv, exists_reported_iff hdoc hnames]
  plain path v w hnames hv hplain hw := by
    have hout := exists_at?_of_expandValues hdoc hroot hnames hv hw
    cases v with
    | object ms => cases hplain
    | _ => exact (Option.some.inj hout).symm
  members path ms w hnames hv hw := by
    have hout := exists_at?_of_expandValues hdoc hroot hnames hv hw
    rcases value_expandEntry_object doc (base ++ path) ms with ⟨hnone, -⟩ | ⟨-, own, hsome, hown⟩
    · cases hnone.symm.trans hout
    · cases hsome.symm.trans hout
      exact ⟨_, rfl, editedMembers_expandChildren (hdoc.of_at? hv).1 hown
        fun k hk => reported_child_iff hdoc hroot hnames hv hw hk⟩

/-- An entry is reported if it goes by itself, and not with one that it stands in. -/
theorem reported_concat_iff {path : List String} {k : String}
    (hnames : ∀ k' ∈ path ++ [k], Name.isChild k') :
    Reported base (expandValues doc base).issues (path ++ [k]) ↔
      (∃ v, doc.at? (path ++ [k]) = some v) ∧
        (∃ w, (expandValues doc base).value.at? path = some w) ∧
        (expandValues doc base).value.at? (path ++ [k]) = none := by
  have hpath : ∀ k' ∈ path, Name.isChild k' := fun k' hk' => hnames k' (List.mem_append_left _ hk')
  have habove {v : Json} (hv : doc.at? (path ++ [k]) = some v) : ∃ u, doc.at? path = some u := by
    rw [at?_append] at hv
    obtain ⟨u, hu, -⟩ := Option.bind_eq_some_iff.1 hv
    exact ⟨u, hu⟩
  constructor
  · intro h
    obtain ⟨-, hs, htop⟩ := (reported_expandValues_iff hdoc).1 h
    obtain ⟨raw, -, hraw, -⟩ := id hs
    obtain ⟨v, hv, -⟩ := Option.bind_eq_some_iff.1 hraw
    obtain ⟨u, hu⟩ := habove hv
    refine ⟨⟨v, hv⟩, Option.ne_none_iff_exists'.1 fun hnone => ?_,
      (at?_expandValues_eq_none_iff hdoc hroot hnames hv).2 ⟨_, List.prefix_rfl, hs⟩⟩
    obtain ⟨above, hpre, hs'⟩ := (at?_expandValues_eq_none_iff hdoc hroot hpath hu).1 hnone
    have he := htop above (hpre.trans (List.prefix_append ..)) hs'
    have hle := hpre.length_le
    rw [he, List.length_append, List.length_singleton] at hle
    exact Nat.not_succ_le_self _ hle
  · rintro ⟨⟨v, hv⟩, ⟨w, hw⟩, hnone⟩
    obtain ⟨u, hu⟩ := habove hv
    obtain ⟨above, hpre, hr⟩ := ((edited_expandValues hdoc hroot).gone _ v hnames hv).1 hnone
    rcases List.prefix_concat_iff.1 hpre with rfl | hpre
    · exact hr
    · rw [((edited_expandValues hdoc hroot).gone path u hpath hu).2 ⟨above, hpre, hr⟩] at hw
      cases hw

omit hroot in
/-- There is at most one issue for an entry. -/
theorem nodup_issues_expandValues : ((expandValues doc base).issues.map Issue.path).Nodup := by
  rw [issues_expandValues]
  refine (sublist_issues_expandEntry doc base doc).nodup ?_
  exact (nodup_entryPaths base doc hdoc).map fun _ _ he => List.append_cancel_right he

/--
**Replacing references touches nothing else.** If the root has no value that
cannot be expanded, a document becomes itself with each value of an entry that
stays expanded where it stands, and without the entries that are reported. An
entry is reported just if it goes by itself: it was there, it is not there in the
end, and what it stood in is. The issues stand in the order of their entries in
the document, no two of them for one entry; each is at the value of its entry,
under the base, and tells why that cannot be expanded.
-/
theorem expandValues_edits :
    Edited (fun raw w => expand doc raw = .ok w)
      (Reported base (expandValues doc base).issues) doc (expandValues doc base).value ∧
    (∀ path k, (∀ k' ∈ path ++ [k], Name.isChild k') →
      (Reported base (expandValues doc base).issues (path ++ [k]) ↔
        (∃ v, doc.at? (path ++ [k]) = some v) ∧
          (∃ w, (expandValues doc base).value.at? path = some w) ∧
          (expandValues doc base).value.at? (path ++ [k]) = none)) ∧
    ((expandValues doc base).issues.map Issue.path).Sublist
      ((entryPaths base doc).map fun path => path ++ [Key.value]) ∧
    ((expandValues doc base).issues.map Issue.path).Nodup ∧
    ∀ i ∈ (expandValues doc base).issues, ∃ path raw e, (∀ k ∈ path, Name.isChild k) ∧
      valueAt? doc path = some raw ∧ expand doc raw = .error e ∧
      i = ⟨base ++ path ++ [Key.value], .reference e⟩ := by
  refine ⟨edited_expandValues hdoc hroot, fun path k => reported_concat_iff hdoc hroot, ?_,
    nodup_issues_expandValues hdoc, fun i hi => ?_⟩
  · rw [issues_expandValues]
    exact sublist_issues_expandEntry doc base doc
  · rw [issues_expandValues] at hi
    obtain ⟨path, raw, e, hnames, -, hraw, he, rfl⟩ := (mem_issues_expandEntry hdoc).1 hi
    exact ⟨path, raw, e, hnames, hraw, he, rfl⟩

end

/-! ## Values that lead nowhere, in a group and below it -/

/-- A group that goes with an entry below it; a number whose extensions look like a reference. -/
def hollowAbove : Json :=
  .object [("gone", .object [(Key.value, nowhere), ("below", .object [(Key.value, nowhere)])]),
    ("one", .object [(Key.value, .object [(Pointer.refKey, .string "#/two/$value")]),
      (Key.extensions, nowhere)]),
    ("two", .object [(Key.value, .number (.integer 2))]),
    ("three", .object [(Key.value, nowhere)])]

/-- The entry below the group is not reported, and the extensions are as they were. -/
theorem hollowAbove_keeps_extensions :
    (hollowAbove.WellFormed ∧ ¬ Spoiled hollowAbove hollowAbove []) ∧
    (expandValues hollowAbove ["at"]).value =
      .object [("one", .object [(Key.value, .number (.integer 2)), (Key.extensions, nowhere)]),
        ("two", .object [(Key.value, .number (.integer 2))])] ∧
    (expandValues hollowAbove ["at"]).issues.map Issue.path =
      [["at", "gone", Key.value], ["at", "three", Key.value]] ∧
    ¬ Reported ["at"] (expandValues hollowAbove ["at"]).issues ["gone", "below"] ∧
    Edited (fun raw w => expand hollowAbove raw = .ok w)
      (Reported ["at"] (expandValues hollowAbove ["at"]).issues) hollowAbove
      (expandValues hollowAbove ["at"]).value := by
  have hdoc : hollowAbove.WellFormed := by
    simp [hollowAbove, nowhere, Json.WellFormed, Json.WellFormedMembers, Key.value, Key.extensions]
  have hroot : ¬ Spoiled hollowAbove hollowAbove [] := by decide +kernel
  obtain ⟨hedited, hreported, -⟩ := @expandValues_edits hollowAbove ["at"] hdoc hroot
  refine ⟨⟨hdoc, hroot⟩, by decide +kernel, by decide +kernel, fun h => ?_, hedited⟩
  obtain ⟨-, ⟨w, hw⟩, -⟩ := (hreported ["gone"] "below" (by decide)).1 h
  have hgone : (expandValues hollowAbove ["at"]).value.at? ["gone"] = none := by decide +kernel
  cases hgone.symm.trans hw

end DesignTokens.Expansion
