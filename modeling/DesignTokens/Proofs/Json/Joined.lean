/-
What merging leaves at a path of member names. Base and overlay are joined at a
path if both have objects there and on the whole way to it, and never two
leaves; it is exactly there that the merge goes on key by key.

Where they are joined, the merge has the members of both, those of the base
first, and below a key that the overlay lacks it has what the base has. Where
they are not, whatever the overlay has replaces what is in the base.
-/
import DesignTokens.Proofs.Json.Merge

namespace DesignTokens.Json

/-! ## Keys -/

/-- The base's keys stay in front, and the overlay's new keys follow in their order. -/
theorem keys_mergeMembers {isLeaf : Members → Bool} {upper : Members}
    (hn : (Dict.keys upper).Nodup) (lower : Members) :
    Dict.keys (mergeMembers isLeaf lower upper) =
      Dict.keys lower ++ (Dict.keys upper).filter (· ∉ Dict.keys lower) := by
  induction upper generalizing lower with
  | nil => simp [mergeMembers]
  | cons m upper ih =>
    obtain ⟨k, v⟩ := m
    rw [Dict.keys_cons, List.nodup_cons] at hn
    rw [mergeMembers, ih hn.2, Dict.keys_insert, Dict.keys_cons]
    by_cases hk : k ∈ Dict.keys lower
    · simp [hk]
    · have hrest : ∀ l ∈ Dict.keys upper,
          decide (l ∉ Dict.keys lower ++ [k]) = decide (l ∉ Dict.keys lower) := by
        intro l hl
        have hne : l ≠ k := fun he => hn.1 (he ▸ hl)
        simp [hne]
      rw [if_neg hk, List.filter_congr hrest]
      simp [hk]

/-! ## Where the merge goes on -/

/-- Two values have objects at a path of which not both are leaves. -/
def Joined (isLeaf : Members → Bool) (base overlay : Json) (path : List String) : Prop :=
  ∃ lower upper, base.at? path = some (.object lower) ∧ overlay.at? path = some (.object upper) ∧
    ¬ (isLeaf lower ∧ isLeaf upper)

/-- Two values are joined at a path and on the whole way to it. -/
def JoinedTo (isLeaf : Members → Bool) (base overlay : Json) (path : List String) : Prop :=
  ∀ before, before <+: path → Joined isLeaf base overlay before

section

variable {isLeaf : Members → Bool} {base overlay : Json} {lower upper : Members}

theorem joinedTo_nil : JoinedTo isLeaf base overlay [] ↔ Joined isLeaf base overlay [] := by
  simp [JoinedTo, List.prefix_nil]

theorem joined_cons_iff {k : String} {path : List String} :
    Joined isLeaf (.object lower) (.object upper) (k :: path) ↔
      ∃ u v, Dict.get? lower k = some u ∧ Dict.get? upper k = some v ∧
        Joined isLeaf u v path := by
  simp only [Joined, at?_object_cons]
  cases Dict.get? lower k <;> cases Dict.get? upper k <;> simp

theorem joinedTo_cons_iff {k : String} {path : List String} :
    JoinedTo isLeaf (.object lower) (.object upper) (k :: path) ↔
      ¬ (isLeaf lower ∧ isLeaf upper) ∧ ∃ u v, Dict.get? lower k = some u ∧
        Dict.get? upper k = some v ∧ JoinedTo isLeaf u v path := by
  constructor
  · intro h
    obtain ⟨lower', upper', hl, hu, hleaf⟩ := h [] List.nil_prefix
    cases hl
    cases hu
    obtain ⟨u, v, hu, hv, -⟩ := joined_cons_iff.1 (h [k] ⟨path, rfl⟩)
    refine ⟨hleaf, u, v, hu, hv, fun before hbefore => ?_⟩
    obtain ⟨u', v', hu', hv', hj⟩ :=
      joined_cons_iff.1 (h (k :: before) (List.cons_prefix_cons.2 ⟨rfl, hbefore⟩))
    rw [hu] at hu'
    rw [hv] at hv'
    cases hu'
    cases hv'
    exact hj
  · rintro ⟨hleaf, u, v, hu, hv, hj⟩ before hbefore
    cases before with
    | nil => exact ⟨lower, upper, rfl, rfl, hleaf⟩
    | cons l before =>
      obtain ⟨rfl, hrest⟩ := List.cons_prefix_cons.1 hbefore
      exact joined_cons_iff.2 ⟨u, v, hu, hv, hj before hrest⟩

/-! ## What the merge has at a path -/

theorem at?_append (v : Json) (path rest : List String) :
    v.at? (path ++ rest) = (v.at? path).bind (·.at? rest) := by
  induction path generalizing v with
  | nil => rfl
  | cons k path ih =>
    rw [List.cons_append, at?, at?]
    cases v.member? k with
    | none => rfl
    | some w => exact ih w

/-- Below a member that both have, the merge goes on with the two values. -/
theorem at?_mergeMembers_cons (hn : (Dict.keys upper).Nodup) {k : String} {u v : Json}
    (hu : Dict.get? lower k = some u) (hv : Dict.get? upper k = some v) (path : List String) :
    (object (mergeMembers isLeaf lower upper)).at? (k :: path) = (merge isLeaf u v).at? path := by
  rw [at?_object_cons, get?_mergeMembers hn, hv, hu]
  rfl

/-- Two values that are not joined are not merged: the overlay stands. -/
theorem merge_of_not_joined (h : ¬ Joined isLeaf base overlay []) :
    merge isLeaf base overlay = overlay := by
  cases overlay with
  | object upper =>
    cases base with
    | object lower =>
      have hleaf : isLeaf lower ∧ isLeaf upper :=
        not_not.1 fun hleaf => h ⟨lower, upper, rfl, rfl, hleaf⟩
      rw [merge, if_pos (by rw [hleaf.1, hleaf.2]; rfl)]
    | _ => rfl
  | _ => exact merge_of_not_object _ rfl

/-- Where two objects are joined, the merge has the members of both. -/
theorem at?_merge_of_joinedTo (ho : overlay.WellFormed) {path : List String}
    (h : JoinedTo isLeaf base overlay path) (hl : base.at? path = some (.object lower))
    (hu : overlay.at? path = some (.object upper)) :
    (merge isLeaf base overlay).at? path = some (.object (mergeMembers isLeaf lower upper)) := by
  induction path generalizing base overlay with
  | nil =>
    obtain ⟨lower', upper', hl', hu', hleaf⟩ := joinedTo_nil.1 h
    cases hl'.symm.trans hl
    cases hu'.symm.trans hu
    cases hl
    cases hu
    rw [merge_objects hleaf, at?_nil]
  | cons k path ih =>
    obtain ⟨bs, os, hb, ho', -⟩ := h [] List.nil_prefix
    cases hb
    cases ho'
    obtain ⟨hleaf, u, v, hu', hv', hj⟩ := joinedTo_cons_iff.1 h
    rw [at?_object_cons, hu'] at hl
    rw [at?_object_cons, hv'] at hu
    rw [merge_objects hleaf, at?_mergeMembers_cons ho.1 hu' hv']
    exact ih (.of_get? ho.2 hv') hj hl hu

/-- Where two values are not joined, the merge has what the overlay has. -/
theorem at?_merge_of_not_joinedTo (ho : overlay.WellFormed) {path : List String} {v : Json}
    (h : ¬ JoinedTo isLeaf base overlay path) (hv : overlay.at? path = some v) :
    (merge isLeaf base overlay).at? path = some v := by
  induction path generalizing base overlay with
  | nil => rw [merge_of_not_joined (fun hj => h (joinedTo_nil.2 hj)), hv]
  | cons k path ih =>
    by_cases hj : Joined isLeaf base overlay []
    · obtain ⟨lower, upper, hl, hu, hleaf⟩ := hj
      cases hl
      cases hu
      cases hm : Dict.get? upper k with
      | none =>
        rw [at?_object_cons, hm] at hv
        cases hv
      | some w =>
        rw [at?_object_cons, hm] at hv
        rw [merge_objects hleaf]
        cases hb : Dict.get? lower k with
        | none =>
          rw [at?_object_cons, get?_mergeMembers ho.1, hm, hb]
          exact hv
        | some u =>
          rw [at?_mergeMembers_cons ho.1 hb hm]
          refine ih (.of_get? ho.2 hm) (fun hj => h ?_) hv
          exact joinedTo_cons_iff.2 ⟨hleaf, u, w, hb, hm, hj⟩
    · rw [merge_of_not_joined hj, hv]

/-- Where both have leaves, the overlay's object stands alone. -/
theorem at?_merge_of_leaves (ho : overlay.WellFormed) {path : List String}
    (hl : base.at? path = some (.object lower)) (hu : overlay.at? path = some (.object upper))
    (hlower : isLeaf lower) (hupper : isLeaf upper) :
    (merge isLeaf base overlay).at? path = some (.object upper) := by
  refine at?_merge_of_not_joinedTo ho (fun hj => ?_) hu
  obtain ⟨lower', upper', hl', hu', hleaf⟩ := hj path (List.prefix_refl path)
  cases hl.symm.trans hl'
  cases hu.symm.trans hu'
  exact hleaf ⟨hlower, hupper⟩

/-- Below a key that the overlay lacks the merge has what the base has. -/
theorem at?_merge_of_missing (ho : overlay.WellFormed) {path : List String} {k : String}
    (h : JoinedTo isLeaf base overlay path) (hk : overlay.at? (path ++ [k]) = none)
    (rest : List String) :
    (merge isLeaf base overlay).at? (path ++ k :: rest) = base.at? (path ++ k :: rest) := by
  obtain ⟨lower, upper, hl, hu, -⟩ := h path (List.prefix_refl path)
  have hmissing : Dict.get? upper k = none := by
    rw [at?_append, hu, Option.bind_some, at?_object_cons] at hk
    cases hm : Dict.get? upper k with
    | none => rfl
    | some w =>
      rw [hm] at hk
      cases hk
  rw [at?_append, at?_append, at?_merge_of_joinedTo ho h hl hu, hl, Option.bind_some,
    Option.bind_some, at?_object_cons, at?_object_cons,
    get?_mergeMembers (ho.of_at? hu).1, hmissing]

end

/--
**A merge, path by path.** Where the overlay has something other than an object,
the merge has just that. Below a key that the overlay lacks in an object of its
own, the merge has what the base has there, if the two are joined at this
object. Where they are joined, the keys are those of the base in their order and
then the new ones of the overlay in theirs; and where both have leaves, the
overlay's object stands alone.
-/
theorem merge_pathwise (isLeaf : Members → Bool) (base : Json) {overlay : Json}
    (ho : overlay.WellFormed) :
    (∀ path v, overlay.at? path = some v → v.isObject = false →
      (merge isLeaf base overlay).at? path = some v) ∧
    (∀ path k rest, JoinedTo isLeaf base overlay path → overlay.at? (path ++ [k]) = none →
      (merge isLeaf base overlay).at? (path ++ k :: rest) = base.at? (path ++ k :: rest)) ∧
    ∀ path lower upper, base.at? path = some (.object lower) →
      overlay.at? path = some (.object upper) →
      (JoinedTo isLeaf base overlay path → ∃ ms,
        (merge isLeaf base overlay).at? path = some (.object ms) ∧
        Dict.keys ms = Dict.keys lower ++ (Dict.keys upper).filter (· ∉ Dict.keys lower)) ∧
      (isLeaf lower → isLeaf upper →
        (merge isLeaf base overlay).at? path = some (.object upper)) := by
  refine ⟨fun path v hv hobject => ?_, fun path k rest hj hk => at?_merge_of_missing ho hj hk rest,
    fun path lower upper hl hu => ⟨fun hj => ?_, at?_merge_of_leaves ho hl hu⟩⟩
  · refine at?_merge_of_not_joinedTo ho (fun hj => ?_) hv
    obtain ⟨lower, upper, -, hu, -⟩ := hj path (List.prefix_refl path)
    rw [hv] at hu
    cases hu
    cases hobject
  · exact ⟨_, at?_merge_of_joinedTo ho hj hl hu, keys_mergeMembers (ho.of_at? hu).1 lower⟩

/-- Two groups with a number, and a token in each that has a value: `a` is joined, `a/c` is not. -/
theorem merge_pathwise_groups :
    let one : Json := .number (.integer 1)
    let hasValue (ms : Members) : Bool := Dict.contains ms "$value"
    let base : Json := .object [("a", .object [("x", one),
      ("c", .object [("$value", one), ("d", .null)])]), ("b", one)]
    let overlay : Json := .object [("n", .object []), ("a", .object [("y", .bool true),
      ("c", .object [("$value", .null)])])]
    overlay.WellFormed ∧
    (merge hasValue base overlay).at? ["a", "y"] = some (.bool true) ∧
    (merge hasValue base overlay).at? ["a", "x"] = some one ∧
    (∃ ms, (merge hasValue base overlay).at? [] = some (.object ms) ∧
      Dict.keys ms = ["a", "b", "n"]) ∧
    (merge hasValue base overlay).at? ["a", "c"] = some (.object [("$value", .null)]) := by
  intro one hasValue base overlay
  have ho : overlay.WellFormed := by
    simp [overlay, WellFormed, WellFormedMembers]
  have hroot : JoinedTo hasValue base overlay [] := joinedTo_nil.2 ⟨_, _, rfl, rfl, by decide⟩
  have hgroup : JoinedTo hasValue base overlay ["a"] :=
    joinedTo_cons_iff.2 ⟨by decide, _, _, rfl, rfl, joinedTo_nil.2 ⟨_, _, rfl, rfl, by decide⟩⟩
  obtain ⟨hscalar, hmissing, hobjects⟩ := merge_pathwise hasValue base ho
  refine ⟨ho, hscalar ["a", "y"] _ rfl rfl, ?_, ?_, ?_⟩
  · exact hmissing ["a"] "x" [] hgroup rfl
  · obtain ⟨ms, hms, hkeys⟩ := (hobjects [] _ _ rfl rfl).1 hroot
    exact ⟨ms, hms, hkeys.trans (by decide)⟩
  · exact (hobjects ["a", "c"] _ _ rfl rfl).2 rfl rfl

end DesignTokens.Json
