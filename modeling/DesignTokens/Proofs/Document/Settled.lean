/-
What is left in a document whose values were expanded without an issue. What is
put in the place of a reference is not looked at again, and need not be: it was
expanded itself. A reference is left only where one is put together: an object
whose single member, `$ref`, has a value that is no text and expands to one.

`expandValues_settled` says that no other references are left, and that a second
run changes nothing where none is put together.
-/
import DesignTokens.Proofs.Document.Expanded
import DesignTokens.Proofs.Document.Expands

namespace DesignTokens

/-- A value is another one, or somewhere within it. -/
inductive Json.Occurs (v : Json) : Json → Prop
  | here : Occurs v v
  | item {u : Json} {items : List Json} (mem : u ∈ items) (inside : Occurs v u) :
      Occurs v (.array items)
  | member {k : String} {u : Json} {ms : Members} (mem : (k, u) ∈ ms) (inside : Occurs v u) :
      Occurs v (.object ms)

theorem Pointer.reference?_eq_some_iff {v : Json} {target : String} :
    reference? v = some target ↔ v = .object [(refKey, .string target)] := by
  constructor
  · intro h
    unfold reference? at h
    split at h
    · next k t =>
      split at h
      · next hk =>
        cases h
        rw [hk]
      · cases h
    · cases h
  · rintro rfl
    rw [reference?, if_pos rfl]

namespace Expansion

open Json

/-! ## The references in a value -/

theorem targets_subset_of_occurs {v w : Json} (h : Occurs v w) : targets v ⊆ targets w := by
  induction h with
  | here => exact List.Subset.refl _
  | item mem _ ih => exact fun t ht => mem_targetsOfItems.2 ⟨_, mem, ih ht⟩
  | member mem _ ih => exact fun t ht => targets_subset_of_mem mem (ih ht)

theorem exists_reference_of_mem_targets {t : String} : (w : Json) → t ∈ targets w →
    ∃ v, Occurs v w ∧ Pointer.reference? v = some t
  | .object ms, h => by
    rw [targets] at h
    split at h
    · next hr => exact ⟨_, .here, List.mem_singleton.1 h ▸ hr⟩
    · obtain ⟨⟨k, u⟩, hm, ht⟩ := mem_targetsOfMembers.1 h
      have hlt := sizeOf_lt_of_mem hm
      obtain ⟨v, hv, hr⟩ := exists_reference_of_mem_targets u ht
      exact ⟨v, .member hm hv, hr⟩
  | .array items, h => by
    obtain ⟨u, hm, ht⟩ := mem_targetsOfItems.1 h
    obtain ⟨v, hv, hr⟩ := exists_reference_of_mem_targets u ht
    exact ⟨v, .item hm hv, hr⟩
  | .null, h | .bool _, h | .number _, h | .string _, h => nomatch h

theorem targets_ne_nil_iff {w : Json} :
    targets w ≠ [] ↔ ∃ v, Occurs v w ∧ (Pointer.reference? v).isSome := by
  constructor
  · intro h
    obtain ⟨t, ht⟩ := List.exists_mem_of_ne_nil _ h
    obtain ⟨v, hv, hr⟩ := exists_reference_of_mem_targets w ht
    exact ⟨v, hv, hr ▸ rfl⟩
  · rintro ⟨v, hv, hr⟩
    obtain ⟨t, hr⟩ := Option.isSome_iff_exists.1 hr
    have ht : t ∈ targets w := targets_subset_of_occurs hv (targets_of_reference? hr ▸ .head _)
    exact List.ne_nil_of_mem ht

/-! ## References that are put together -/

/--
A reference is put together as a value is expanded: what stands under `$ref`, in
an object that is no reference, expands to a text. This may be in the value
itself or in what its references lead to.
-/
inductive Assembles (doc : Json) : Json → Prop
  | here {raw : Json} {text : String}
      (plain : Pointer.reference? (.object [(Pointer.refKey, raw)]) = none)
      (expands : Expands doc raw (.string text)) : Assembles doc (.object [(Pointer.refKey, raw)])
  | behind {v found : Json} {target : String} (refers : Pointer.reference? v = some target)
      (lies : Pointer.atFragment doc target = .ok found) (assembles : Assembles doc found) :
      Assembles doc v
  | item {v : Json} {items : List Json} (mem : v ∈ items) (assembles : Assembles doc v) :
      Assembles doc (.array items)
  | member {k : String} {v : Json} {ms : Members}
      (plain : Pointer.reference? (.object ms) = none) (mem : (k, v) ∈ ms)
      (assembles : Assembles doc v) : Assembles doc (.object ms)

section

variable {doc : Json}

theorem Expands.unique {v w w' : Json} (h : Expands doc v w) (h' : Expands doc v w') : w = w' := by
  have hw := expand_eq_ok_iff.2 h
  cases hw.symm.trans (expand_eq_ok_iff.2 h')
  rfl

theorem assembles_reference_iff {v found : Json} {target : String}
    (refers : Pointer.reference? v = some target)
    (lies : Pointer.atFragment doc target = .ok found) :
    Assembles doc v ↔ Assembles doc found := by
  constructor
  · intro h
    cases h with
    | here plain | member plain => cases plain.symm.trans refers
    | behind refers' lies' assembles =>
      cases refers.symm.trans refers'
      cases lies.symm.trans lies'
      exact assembles
    | item => cases refers
  · exact .behind refers lies

theorem assembles_array_iff {items : List Json} :
    Assembles doc (.array items) ↔ ∃ v ∈ items, Assembles doc v := by
  constructor
  · intro h
    cases h with
    | behind refers => cases refers
    | item mem assembles => exact ⟨_, mem, assembles⟩
  · rintro ⟨v, mem, assembles⟩
    exact .item mem assembles

/-- What an object that is no reference becomes is one just if it is put together there. -/
theorem reference?_of_expandsMembers {ms ns : Members}
    (plain : Pointer.reference? (.object ms) = none) (members : ExpandsMembers doc ms ns)
    {text : String} : Pointer.reference? (.object ns) = some text ↔
      ∃ raw, ms = [(Pointer.refKey, raw)] ∧ Expands doc raw (.string text) := by
  rw [Pointer.reference?_eq_some_iff, Json.object.injEq]
  constructor
  · rintro rfl
    cases members with
    | cons _ head tail =>
      cases tail
      exact ⟨_, rfl, head⟩
  · rintro ⟨raw, rfl, expands⟩
    cases members with
    | cons _ head tail =>
      cases tail
      rw [head.unique expands]

theorem assembles_object_iff {ms ns : Members} (plain : Pointer.reference? (.object ms) = none)
    (members : ExpandsMembers doc ms ns) : Assembles doc (.object ms) ↔
      (Pointer.reference? (.object ns)).isSome ∨ ∃ m ∈ ms, Assembles doc m.2 := by
  constructor
  · intro h
    cases h with
    | here _ expands =>
      exact .inl (Option.isSome_iff_exists.2
        ⟨_, (reference?_of_expandsMembers plain members).2 ⟨_, rfl, expands⟩⟩)
    | behind refers => cases plain.symm.trans refers
    | member _ mem assembles => exact .inr ⟨_, mem, assembles⟩
  · rintro (h | ⟨m, mem, assembles⟩)
    · obtain ⟨text, h⟩ := Option.isSome_iff_exists.1 h
      obtain ⟨raw, rfl, expands⟩ := (reference?_of_expandsMembers plain members).1 h
      exact .here plain expands
    · exact .member plain mem assembles

end

mutual

/-- References are left in what is derived just where they are put together. -/
theorem Expands.targets_ne_nil_iff {doc : Json} : {v w : Json} → Expands doc v w →
    (targets w ≠ [] ↔ Assembles doc v)
  | _, _, .reference refers lies expands =>
    expands.targets_ne_nil_iff.trans (assembles_reference_iff refers lies).symm
  | _, .object ns, .object plain members => by
    rw [assembles_object_iff plain members, ← members.targets_ne_nil_iff]
    cases hr : Pointer.reference? (.object ns) with
    | none => simp [targets_object hr]
    | some text => simp [targets_of_reference? hr]
  | _, _, .array each => each.targets_ne_nil_iff.trans assembles_array_iff.symm
  | _, _, .null | _, _, .bool _ | _, _, .number _ | _, _, .string _ =>
    iff_of_false (· rfl) fun h => by
      cases h with
      | behind refers => cases refers
termination_by structural _ _ h => h

theorem ExpandsItems.targets_ne_nil_iff {doc : Json} : {vs ws : List Json} →
    ExpandsItems doc vs ws → (targetsOfItems ws ≠ [] ↔ ∃ v ∈ vs, Assembles doc v)
  | _, _, .nil => by simp [targetsOfItems]
  | _, _, .cons head tail => by
    rw [targetsOfItems, List.exists_mem_cons_iff, ← head.targets_ne_nil_iff,
      ← tail.targets_ne_nil_iff, ne_eq, List.append_eq_nil_iff, not_and_or]
termination_by structural _ _ h => h

theorem ExpandsMembers.targets_ne_nil_iff {doc : Json} : {ms ns : Members} →
    ExpandsMembers doc ms ns → (targetsOfMembers ns ≠ [] ↔ ∃ m ∈ ms, Assembles doc m.2)
  | _, _, .nil => by simp [targetsOfMembers]
  | _, _, .cons _ head tail => by
    rw [targetsOfMembers, List.exists_mem_cons_iff, ← head.targets_ne_nil_iff,
      ← tail.targets_ne_nil_iff, ne_eq, List.append_eq_nil_iff, not_and_or]
termination_by structural _ _ h => h

end

/-! ## Documents without issues -/

section

variable {doc : Json} {place : Pointer.Path}

theorem issues_expandChildren_eq_nil_iff {own : Option Json} {ms : Members} :
    (expandChildren doc place own ms).issues = [] ↔
      ∀ m ∈ ms, (expandMember doc place own m.1 m.2).issues = [] := by
  induction ms with
  | nil => simp [expandChildren]
  | cons m ms ih =>
    rw [expandChildren_cons, Reading.issues_bind_eq_nil_iff, Reading.issues_bind_eq_nil_iff, ih,
      List.forall_mem_cons]
    simp

/-- Where nothing is reported of an entry, nothing is reported of its children. -/
theorem issues_child_eq_nil {ms : Members}
    (h : (expandEntry doc place (.object ms)).issues = []) {k : String} {v : Json}
    (hk : Name.isChild k) (hm : (k, v) ∈ ms) : (expandEntry doc (place ++ [k]) v).issues = [] := by
  rcases expandEntry_object_cases doc place ms with ⟨raw, e, -, -, he⟩ | ⟨own, -, he⟩
  · rw [he] at h
    cases h
  · rw [he, Reading.issues_bind_eq_nil_iff] at h
    have hv := issues_expandChildren_eq_nil_iff.1 h.1 _ hm
    rwa [expandMember, if_neg (isChild_ne_value hk), if_pos hk] at hv

theorem not_spoiled_of_issues_eq_nil {path : List String} (hnames : ∀ k ∈ path, Name.isChild k)
    {tree : Json} (h : (expandEntry doc place tree).issues = []) : ¬ Spoiled doc tree path := by
  intro hs
  induction path generalizing tree place with
  | nil =>
    obtain ⟨ms, rfl⟩ := hs.exists_members
    rcases expandEntry_object_cases doc place ms with ⟨raw, e, -, -, he⟩ | ⟨own, hown, -⟩
    · rw [he] at h
      cases h
    · obtain ⟨raw, e, hraw, he⟩ := hs
      obtain ⟨w, -, hw⟩ := hown raw hraw
      cases hw.symm.trans he
  | cons k path ih =>
    obtain ⟨hk, hnames⟩ := List.forall_mem_cons.1 hnames
    obtain ⟨ms, rfl⟩ := hs.exists_members
    obtain ⟨v, hv, hs⟩ := spoiled_object_cons.1 hs
    exact ih hnames (issues_child_eq_nil h hk (Dict.mem_of_get? hv)) hs

/-- An entry stays as it is where no value in it or below it holds a reference. -/
theorem expandEntry_of_plain : (tree : Json) → tree.WellFormed →
    (∀ path raw, (∀ k ∈ path, Name.isChild k) → valueAt? tree path = some raw →
      targets raw = []) → ∀ place, expandEntry doc place tree = pure (some tree)
  | .object ms, hwf, hplain, place => by
    have hchild : ∀ k v, (k, v) ∈ ms → Name.isChild k →
        expandEntry doc (place ++ [k]) v = pure (some v) := fun k v hm hk => by
      have hlt := sizeOf_lt_of_mem hm
      have hget := Dict.get?_of_mem hwf.1 hm
      refine expandEntry_of_plain v (.of_get? hwf.2 hget) (fun path raw hnames hraw => ?_) _
      refine hplain (k :: path) raw (List.forall_mem_cons.2 ⟨hk, hnames⟩) ?_
      rw [valueAt?_object_cons, hget]
      exact hraw
    rcases expandEntry_object_cases doc place ms with ⟨raw, e, hraw, he, -⟩ | ⟨own, hown, h⟩
    · rw [expand_eq_self (hplain [] raw nofun hraw)] at he
      cases he
    · rw [h, expandChildren_eq_self (fun raw hm => ?_) hchild]
      · rfl
      · have hraw := Dict.get?_of_mem hwf.1 hm
        obtain ⟨w, rfl, hw⟩ := hown raw hraw
        rw [expand_eq_self (hplain [] raw nofun hraw)] at hw
        cases hw
        rfl
  | .null, _, _, _ | .bool _, _, _, _ | .number _, _, _, _ | .string _, _, _, _
  | .array _, _, _, _ => rfl

end

section

variable {doc : Json} {base : Pointer.Path} (hclean : (expandValues doc base).issues = [])

include hclean

theorem issues_expandEntry_root : (expandEntry doc base doc).issues = [] :=
  (Reading.issues_bind_eq_nil_iff.1 hclean).1

theorem value_expandEntry_root :
    (expandEntry doc base doc).value = some (expandValues doc base).value := by
  rw [value_expandValues]
  cases h : (expandEntry doc base doc).value with
  | none =>
    exact absurd (value_expandEntry_eq_none_iff.1 h)
      (not_spoiled_of_issues_eq_nil (List.forall_mem_nil _) (issues_expandEntry_root hclean))
  | some out => rfl

/-- Where there are no issues, each value becomes what it expands to, and there are no others. -/
theorem valueAt?_expandValues_of_clean (hdoc : doc.WellFormed) {path : List String}
    (hnames : ∀ k ∈ path, Name.isChild k) {w : Json} :
    valueAt? (expandValues doc base).value path = some w ↔
      ∃ raw, valueAt? doc path = some raw ∧ expand doc raw = .ok w := by
  have hat := at?_expandEntry hnames hdoc base fun above habove =>
    not_spoiled_of_issues_eq_nil (fun k hk => hnames k (habove.subset hk))
      (issues_expandEntry_root hclean)
  rw [value_expandEntry_root hclean, Option.bind_some] at hat
  rw [valueAt?, valueAt?, hat]
  cases hv : doc.at? path with
  | none => simp
  | some v =>
    simp only [Option.bind_some]
    cases hentry : (expandEntry doc (base ++ path) v).value with
    | some out => exact member?_value_expandEntry (.of_at? hdoc hv) hentry
    | none =>
      -- a value that cannot be expanded is no value of the document before, and none after
      obtain ⟨raw, e, hraw, he⟩ := value_expandEntry_eq_none_iff.1 hentry
      constructor
      · intro hw
        cases hw
      · rintro ⟨raw', hraw', hw⟩
        cases hraw'.symm.trans hraw
        cases hw.symm.trans he

/--
**The references that are left.** Where the values of a document are expanded
without an issue, one of them holds a reference in the end just if one is put
together as the value is expanded. Where none is put together anywhere, a second
run finds nothing to do.
-/
theorem expandValues_settled (hdoc : doc.WellFormed) :
    (∀ path w, (∀ k ∈ path, Name.isChild k) →
      valueAt? (expandValues doc base).value path = some w →
      ((∃ v, Occurs v w ∧ (Pointer.reference? v).isSome) ↔
        ∃ raw, valueAt? doc path = some raw ∧ Assembles doc raw)) ∧
    ((∀ path raw, (∀ k ∈ path, Name.isChild k) → valueAt? doc path = some raw →
        ¬ Assembles doc raw) →
      ∀ base', expandValues (expandValues doc base).value base' =
        pure (expandValues doc base).value) := by
  have hleft : ∀ path w, (∀ k ∈ path, Name.isChild k) →
      valueAt? (expandValues doc base).value path = some w →
      (targets w ≠ [] ↔ ∃ raw, valueAt? doc path = some raw ∧ Assembles doc raw) := by
    intro path w hnames hvalue
    obtain ⟨raw, hraw, hw⟩ := (valueAt?_expandValues_of_clean hclean hdoc hnames).1 hvalue
    rw [(expand_eq_ok_iff.1 hw).targets_ne_nil_iff, hraw]
    simp
  refine ⟨fun path w hnames hvalue => targets_ne_nil_iff.symm.trans (hleft path w hnames hvalue),
    fun hplain base' => ?_⟩
  have hwf := wellFormed_expandEntry hdoc base doc hdoc _ (value_expandEntry_root hclean)
  rw [expandValues, expandEntry_of_plain _ hwf (fun path w hnames hvalue => ?_)]
  · rfl
  · refine Classical.not_not.1 fun hne => ?_
    obtain ⟨raw, hraw, hassembles⟩ := (hleft path w hnames hvalue).1 hne
    exact hplain path raw hnames hraw hassembles

end

/-! ## A reference put together from a text -/

/-- A number whose reference is itself a text that another value holds. -/
def spelledReference : Json :=
  .object [("a", .object [(Key.type, .string "number"),
      (Key.value, .object [(Pointer.refKey, .object [(Pointer.refKey, .string "#/b/$value")])])]),
    ("b", .object [(Key.value, .string "#/c/$value")]),
    ("c", .object [(Key.type, .string "number"), (Key.value, .number (.integer 4))])]

theorem wellFormed_spelledReference : spelledReference.WellFormed := by
  simp [spelledReference, Json.WellFormed, Json.WellFormedMembers, Key.type, Key.value]

/-- No issue is reported, a reference is left, and the next run follows it. -/
theorem spelledReference_left :
    spelledReference.WellFormed ∧ (expandValues spelledReference []).issues = [] ∧
    valueAt? (expandValues spelledReference []).value ["a"] =
      some (.object [(Pointer.refKey, .string "#/c/$value")]) ∧
    Pointer.reference? (.object [(Pointer.refKey, .string "#/c/$value")]) = some "#/c/$value" ∧
    valueAt? (expandValues (expandValues spelledReference []).value []).value ["a"] =
      some (.number (.integer 4)) :=
  ⟨wellFormed_spelledReference, by decide +kernel, by decide +kernel, by decide, by decide +kernel⟩

/-- A reference to a number, and the number. -/
def chainedNumber : Json :=
  .object [("a", .object [(Key.value, .object [(Pointer.refKey, .string "#/b/$value")])]),
    ("b", .object [(Key.value, .number (.integer 4))])]

/-- Both values expand to the number, so that nothing is put together in them. -/
theorem not_assembles_chainedNumber {path : List String} (hnames : ∀ k ∈ path, Name.isChild k)
    {raw : Json} (hraw : valueAt? chainedNumber path = some raw) :
    ¬ Assembles chainedNumber raw := by
  have hw : expand chainedNumber raw = .ok (.number (.integer 4)) := by
    cases path with
    | nil => cases hraw
    | cons k path =>
      obtain ⟨v, hv, hraw⟩ := Option.bind_eq_some_iff.1 (valueAt?_object_cons .. ▸ hraw)
      have hm := Dict.mem_of_get? hv
      simp only [List.mem_cons, Prod.mk.injEq, List.not_mem_nil, or_false] at hm
      cases path with
      | nil =>
        obtain ⟨-, rfl⟩ | ⟨-, rfl⟩ := hm
        · cases hraw
          decide +kernel
        · cases hraw
          decide +kernel
      | cons k' path =>
        -- neither entry has children
        have hk' := isChild_ne_value (hnames k' (by simp))
        obtain ⟨-, rfl⟩ | ⟨-, rfl⟩ := hm
        · simp [valueAt?_object_cons, Dict.get?, hk'.symm] at hraw
        · simp [valueAt?_object_cons, Dict.get?, hk'.symm] at hraw
  exact fun h => (expand_eq_ok_iff.1 hw).targets_ne_nil_iff.2 h rfl

/--
What is put together in the number is what is left of it; where a number is
referred to nothing is left to do.
-/
theorem settled_spelledReference :
    (spelledReference.WellFormed ∧ (expandValues spelledReference []).issues = []) ∧
    (∃ raw, valueAt? spelledReference ["a"] = some raw ∧ Assembles spelledReference raw) ∧
    (chainedNumber.WellFormed ∧ (expandValues chainedNumber []).issues = []) ∧
    expandValues (expandValues chainedNumber []).value [] =
      pure (expandValues chainedNumber []).value := by
  have hclean : (expandValues spelledReference []).issues = [] := by decide +kernel
  have hwf : chainedNumber.WellFormed := by
    simp [chainedNumber, Json.WellFormed, Json.WellFormedMembers]
  have hnone : (expandValues chainedNumber []).issues = [] := by decide +kernel
  refine ⟨⟨wellFormed_spelledReference, hclean⟩, ?_, ⟨hwf, hnone⟩, ?_⟩
  · refine ((expandValues_settled hclean wellFormed_spelledReference).1 ["a"]
      (.object [(Pointer.refKey, .string "#/c/$value")]) (by decide) (by decide +kernel)).1 ?_
    exact ⟨_, .here, by decide⟩
  · exact (expandValues_settled hnone hwf).2
      (fun _ _ hnames hraw => not_assembles_chainedNumber hnames hraw) []

end Expansion

end DesignTokens
