/-
Which source of a set has the last word on the value of a token. A group may
have a value of its own, in place or in a `$root` child, and sources may differ
in how they give it.

Of several plain tokens the last one stands as it is. But a token that meets a
group with a value of its own is merged with it member by member, and the merge
goes on into the two values and does not see what `$root` stands for. So the
last source is not always heard: members of an earlier value stay in an object
that should replace it, and an earlier `$root` token keeps its value.
`ownValue_mergeLayers_iff` says exactly when the last value is the one that is
read.
-/
import DesignTokens.Document.Ids
import DesignTokens.Document.Resolver.Reader
import DesignTokens.Proofs.Json.Merge
import DesignTokens.Proofs.Outcome

namespace DesignTokens.Resolver

open Json

/-- The value that an entry of a tree has as a token: that of its `$root` child, or its own. -/
def ownValue? (ms : Members) : Option Json :=
  match Dict.get? ms rootTokenName with
  | some root => root.member? Key.value
  | none => Dict.get? ms Key.value

/-- The value of the entry at a path of a tree. -/
def ownValueAt? (tree : Json) (path : List String) : Option Json :=
  ((tree.at? path).bind Json.members?).bind ownValue?

/--
Whether a tree says nothing of the value of the entry at a path: whatever it
has on the way there is an object, and so is what it has there, without a value
and without a `$root` child.
-/
def isSilent : List String → Json → Bool
  | [], .object ms => !Dict.contains ms Key.value && !Dict.contains ms rootTokenName
  | k :: path, .object ms =>
    match Dict.get? ms k with
    | some v => isSilent path v
    | none => true
  | _, _ => false

/-! ## Plain tokens -/

/-- A plain token holds nothing that a path of names leads to. -/
theorem not_isPlainToken_of_get? {ms : Members} {k : String} {v : Json} (hk : Name.isChild k)
    (h : Dict.get? ms k = some v) : ¬ isPlainToken ms := by
  simp only [isPlainToken, Bool.and_eq_true, List.all_eq_true, not_and]
  intro _ hall
  have := hall _ (Dict.mem_of_get? h)
  simp [hk] at this

theorem not_isPlainToken_of_value {ms : Members} (h : Dict.get? ms Key.value = none) :
    ¬ isPlainToken ms := by
  simp [isPlainToken, Dict.contains, h]

/-! ## Merging one source -/

/-- What a path leads to in a source is merged with what it led to before. -/
theorem at?_merge {path : List String} (hnames : ∀ name ∈ path, Name.isChild name)
    {base tree w : Json} (htree : tree.WellFormed) (hat : tree.at? path = some w) :
    (merge isPlainToken base tree).at? path =
      some (mergeInto isPlainToken (base.at? path) w) := by
  induction path generalizing base tree with
  | nil =>
    cases hat
    rfl
  | cons k path ih =>
    obtain ⟨hk, hnames⟩ := List.forall_mem_cons.1 hnames
    cases tree with
    | object ms =>
      cases hm : Dict.get? ms k with
      | none =>
        rw [at?_object_cons, hm] at hat
        cases hat
      | some u =>
        rw [at?_object_cons, hm] at hat
        cases base with
        | object ns =>
          rw [merge_objects fun h => not_isPlainToken_of_get? hk hm h.2, at?_object_cons,
            get?_mergeMembers htree.1, hm, at?_object_cons]
          cases Dict.get? ns k with
          | none => exact hat
          | some u' => exact ih hnames (.of_get? htree.2 hm) hat
        | _ =>
          rw [merge_into_not_object rfl, at?_object_cons, hm]
          exact hat
    | _ => cases hat

/-- The entry that a path leads to stays, with its value, when a silent source is merged. -/
theorem at?_merge_of_silent {path : List String} (hnames : ∀ name ∈ path, Name.isChild name)
    {base tree : Json} (htree : tree.WellFormed) (hsilent : isSilent path tree) {ns : Members}
    (hat : base.at? path = some (.object ns)) :
    ∃ ns', (merge isPlainToken base tree).at? path = some (.object ns') ∧
      ownValue? ns' = ownValue? ns := by
  induction path generalizing base tree with
  | nil =>
    cases hat
    cases tree with
    | object ms =>
      simp only [isSilent, Dict.contains, Bool.and_eq_true, Bool.not_eq_true',
        Option.isSome_eq_false_iff, Option.isNone_iff_eq_none] at hsilent
      obtain ⟨hvalue, hroot⟩ := hsilent
      rw [merge_objects fun h => not_isPlainToken_of_value hvalue h.2]
      refine ⟨_, rfl, ?_⟩
      rw [ownValue?, get?_mergeMembers htree.1, get?_mergeMembers htree.1, hvalue, hroot]
      rfl
    | _ => cases hsilent
  | cons k path ih =>
    obtain ⟨hk, hnames⟩ := List.forall_mem_cons.1 hnames
    cases base with
    | object bs =>
      cases hb : Dict.get? bs k with
      | none =>
        rw [at?_object_cons, hb] at hat
        cases hat
      | some u =>
        rw [at?_object_cons, hb] at hat
        cases tree with
        | object ms =>
          rw [isSilent] at hsilent
          rw [merge_objects fun h => not_isPlainToken_of_get? hk hb h.1, at?_object_cons,
            get?_mergeMembers htree.1, hb]
          cases hm : Dict.get? ms k with
          | none => exact ⟨ns, hat, rfl⟩
          | some v =>
            rw [hm] at hsilent
            exact ih hnames (.of_get? htree.2 hm) hsilent hat
        | _ => cases hsilent
    | _ => cases hat

theorem ownValueAt?_foldl {path : List String} (hnames : ∀ name ∈ path, Name.isChild name)
    {base : Json} {after : List Json} (hafter : ∀ t ∈ after, t.WellFormed ∧ isSilent path t)
    {ns : Members} (hat : base.at? path = some (.object ns)) :
    ownValueAt? (after.foldl (Json.merge isPlainToken) base) path = ownValue? ns := by
  induction after generalizing base ns with
  | nil =>
    rw [List.foldl_nil, ownValueAt?, hat]
    rfl
  | cons t after ih =>
    obtain ⟨⟨ht, hsilent⟩, hafter⟩ := List.forall_mem_cons.1 hafter
    obtain ⟨ns', hat', hown⟩ := at?_merge_of_silent hnames ht hsilent hat
    rw [List.foldl_cons, ih hafter hat', hown]

/-! ## The last word -/

/--
Members with a value that replace what earlier sources have there: both are
plain tokens, or the earlier entry has no `$root` token and its value leaves
nothing behind, or its `$root` token has the same value.
-/
def Replaces (v : Json) (ms earlier : Members) : Prop :=
  (isPlainToken earlier ∧ isPlainToken ms) ∨
    match Dict.get? earlier rootTokenName with
    | some root => root.member? Key.value = some v
    | none => ∀ u, Dict.get? earlier Key.value = some u → merge isPlainToken u v = v

/-- What is read once members with a value are merged with what was there before. -/
theorem ownValue?_merge_iff {ms earlier : Members} (hms : (Dict.keys ms).Nodup) {v : Json}
    (hv : Dict.get? ms Key.value = some v) (hr : Dict.get? ms rootTokenName = none) :
    ((merge isPlainToken (.object earlier) (.object ms)).members?.bind ownValue? = some v) ↔
      Replaces v ms earlier := by
  have hown : ownValue? ms = some v := by rw [ownValue?, hr, hv]
  by_cases hplain : isPlainToken earlier ∧ isPlainToken ms
  · rw [merge, if_pos (by rw [hplain.1, hplain.2]; rfl)]
    exact iff_of_true hown (.inl hplain)
  · rw [merge_objects hplain, Replaces, or_iff_right hplain]
    show ownValue? _ = _ ↔ _
    rw [ownValue?, get?_mergeMembers hms, get?_mergeMembers hms, hr, hv]
    cases Dict.get? earlier rootTokenName with
    | some root => rfl
    | none =>
      cases Dict.get? earlier Key.value with
      | none => simp [mergeInto]
      | some u => simp [mergeInto]

/--
**When the last source is heard.** Among sources that are merged, let one give
the entry at a path a value in place, and let all later ones be silent on it.
Then this value is the one that is read of the merged tree just if it replaces
what the earlier sources have there together.
-/
theorem ownValue_mergeLayers_iff {before after : List Json} {source : Json} {path : List String}
    {ms : Members} {v : Json} (hnames : ∀ name ∈ path, Name.isChild name)
    (hsource : source.WellFormed) (hat : source.at? path = some (.object ms))
    (hv : Dict.get? ms Key.value = some v) (hr : Dict.get? ms rootTokenName = none)
    (hafter : ∀ t ∈ after, t.WellFormed ∧ isSilent path t) :
    ownValueAt? (mergeLayers isPlainToken (before ++ source :: after)) path = some v ↔
      ∀ earlier, (mergeLayers isPlainToken before).at? path = some (.object earlier) →
        Replaces v ms earlier := by
  have hms : (Dict.keys ms).Nodup := (hsource.of_at? hat).1
  obtain ⟨ns, hns⟩ : ∃ ns,
      mergeInto isPlainToken ((mergeLayers isPlainToken before).at? path) (.object ms) =
        .object ns :=
    exists_members_of_mergeInto _ ms
  have hmerged : (merge isPlainToken (mergeLayers isPlainToken before) source).at? path =
      some (.object ns) := by
    rw [at?_merge hnames hsource hat, hns]
  rw [mergeLayers, List.foldl_append, List.foldl_cons, ← mergeLayers,
    ownValueAt?_foldl hnames hafter hmerged]
  cases hearlier : (mergeLayers isPlainToken before).at? path with
  | none =>
    rw [hearlier] at hns
    cases hns
    exact iff_of_true (by rw [ownValue?, hr, hv]) fun _ h => by cases h
  | some u =>
    cases u with
    | object earlier =>
      have hmeet : _ ↔ Replaces v ms earlier := ownValue?_merge_iff hms hv hr
      rw [hearlier] at hns
      rw [show merge isPlainToken (.object earlier) (.object ms) = .object ns from hns] at hmeet
      simpa [Json.members?] using hmeet
    | _ =>
      rw [hearlier] at hns
      cases hns
      exact iff_of_true (by rw [ownValue?, hr, hv]) fun _ h => by cases h

/-! ## A colour that keeps the alpha of another one -/

/-- A colour as it is written, with members after its components. -/
def srgb (components : List Int) (more : Members) : Json :=
  .object ([("colorSpace", .string "srgb"),
    ("components", .array (components.map fun n => .number (.integer n)))] ++ more)

/-- A group with a transparent blue of its own. -/
def accentGroup : Json :=
  .object [("accent", .object [(Key.type, .string "color"),
    (Key.value, srgb [0, 0, 1] [("alpha", .number (.integer 0))]),
    ("soft", .object [(Key.value, srgb [0, 0, 0] [])])])]

/-- A plain red token. -/
def redAccent : Members := [(Key.type, .string "color"), (Key.value, srgb [1, 0, 0] [])]

/-- A set whose second source makes the blue of the first one red. -/
def recolored : Json :=
  .object [("version", .string resolverVersion), ("resolutionOrder", .array [
    .object [("type", .string "set"), ("name", .string "s"),
      ("sources", .array [accentGroup, .object [("accent", .object redAccent)]])]])]

/-- The red has no alpha where it is written, and that of the blue where it is read. -/
theorem recolored_transparent :
    Dict.get? redAccent Key.value = some (srgb [1, 0, 0] []) ∧
    Dict.get? redAccent rootTokenName = none ∧
    ownValueAt? (mergeLayers isPlainToken [accentGroup, .object [("accent", .object redAccent)]])
      ["accent"] = some (srgb [1, 0, 0] [("alpha", .number (.integer 0))]) ∧
    srgb [1, 0, 0] [("alpha", .number (.integer 0))] ≠ srgb [1, 0, 0] [] ∧
    (parse .path .all recolored).2.isClean ∧
    (Store.ofNodes (parse .path .all recolored).2.nodes).resolve ⟨"/s/accent/$root"⟩ =
      .ok ⟨.color, .color ⟨.srgb, [.integer 1, .integer 0, .integer 0], some (.integer 0), none⟩⟩ :=
  ⟨rfl, rfl, by decide +kernel, by decide +kernel, by decide +kernel, by decide +kernel⟩

/-- A number that is no object replaces the blue, and a third source may add to the group. -/
theorem ownValue_mergeLayers_nine :
    let nine : Json := .number (.integer 9)
    let source : Json := .object [("accent", .object [(Key.value, nine)])]
    let after : Json := .object [("accent", .object [("deep", .object [(Key.value, nine)])])]
    (source.WellFormed ∧ after.WellFormed ∧ isSilent ["accent"] after) ∧
      ownValueAt? (mergeLayers isPlainToken ([accentGroup] ++ source :: [after])) ["accent"] =
        some nine := by
  intro nine source after
  have hsource : source.WellFormed := by
    simp [source, nine, Json.WellFormed, Json.WellFormedMembers]
  have hafter : after.WellFormed := by
    simp [after, nine, Json.WellFormed, Json.WellFormedMembers]
  refine ⟨⟨hsource, hafter, rfl⟩, ?_⟩
  have hat : source.at? ["accent"] = some (.object [(Key.value, nine)]) := rfl
  refine (ownValue_mergeLayers_iff (by decide) hsource hat rfl rfl
    (List.forall_mem_singleton.2 ⟨hafter, rfl⟩)).2 fun earlier h => .inr ?_
  cases h
  exact fun u _ => merge_of_not_object u rfl

end DesignTokens.Resolver
