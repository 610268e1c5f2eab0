/-
A source that is listed twice in a row. Most often the second time has no effect.
But a plain token that meets an object of metadata alone is merged with it, and
what comes of that is a plain token, which the same token then replaces when it
comes again. So the metadata stays after the first time and goes with the second.

`mergeLayers_repeated_iff` says that this is the only way in which a repeated
source changes the merged tree.
-/
import DesignTokens.Document.Resolver.Reader
import DesignTokens.Proofs.Json.Repeated

namespace DesignTokens.Resolver

open Json

/-- Whether an object has metadata alone: no value, no children and no `$root` token. -/
def isMetadata (ms : Members) : Bool :=
  !Dict.contains ms Key.value && ms.all fun m => !Name.isChild m.1

theorem all_not_isChild_iff {ms : Members} :
    (ms.all fun m => !Name.isChild m.1) ↔ ∀ k ∈ Dict.keys ms, ¬ Name.isChild k := by
  simp [Dict.keys]

theorem isPlainToken_iff {ms : Members} :
    isPlainToken ms ↔ Key.value ∈ Dict.keys ms ∧ ∀ k ∈ Dict.keys ms, ¬ Name.isChild k := by
  rw [isPlainToken, Bool.and_eq_true, all_not_isChild_iff, Dict.contains, Dict.isSome_get?_iff]

theorem isMetadata_iff {ms : Members} :
    isMetadata ms ↔ Key.value ∉ Dict.keys ms ∧ ∀ k ∈ Dict.keys ms, ¬ Name.isChild k := by
  rw [isMetadata, Bool.and_eq_true, all_not_isChild_iff, Dict.contains, Bool.not_eq_true',
    Option.isSome_eq_false_iff, Option.isNone_iff_eq_none, Dict.get?_eq_none_iff]

/-- Members that a plain token joins make a plain token just if none of them is a child. -/
theorem isPlainToken_mergeMembers_iff {isLeaf : Members → Bool} {token : Members}
    (hn : (Dict.keys token).Nodup) (htoken : isPlainToken token) (ms : Members) :
    isPlainToken (mergeMembers isLeaf ms token) ↔ isPlainToken ms ∨ isMetadata ms := by
  obtain ⟨hvalue, hown⟩ := isPlainToken_iff.1 htoken
  have hkeys : ∀ k, k ∈ Dict.keys (mergeMembers isLeaf ms token) ↔
      k ∈ Dict.keys ms ∨ k ∈ Dict.keys token := by
    intro k
    rw [keys_mergeMembers hn, List.mem_append, List.mem_filter, decide_eq_true_eq]
    tauto
  rw [isPlainToken_iff, isPlainToken_iff, isMetadata_iff, ← or_and_right,
    and_iff_right (em _), and_iff_right ((hkeys _).2 (.inr hvalue))]
  constructor
  · exact fun h k hk => h k ((hkeys k).2 (.inl hk))
  · rintro h k hk
    rcases (hkeys k).1 hk with hk | hk
    · exact h k hk
    · exact hown k hk

/--
**When a repeated source is harmless.** The merged tree stays the same if the
last source is listed once more, just if it has no plain token that the merge
joins to an object of metadata alone, or such a token only where nothing is left
of the metadata.
-/
theorem mergeLayers_repeated_iff (before : List Json) {source : Json} (hs : source.WellFormed) :
    mergeLayers isPlainToken (before ++ [source, source]) =
        mergeLayers isPlainToken (before ++ [source]) ↔
      ∀ path metadata token, JoinedTo isPlainToken (mergeLayers isPlainToken before) source path →
        (mergeLayers isPlainToken before).at? path = some (.object metadata) →
        source.at? path = some (.object token) → isMetadata metadata → isPlainToken token →
        mergeMembers isPlainToken metadata token = token := by
  rw [mergeLayers_append_twice, mergeLayers_append_singleton, merge_merge_eq_iff hs]
  constructor
  · intro h path metadata token hj hm ht hmetadata htoken
    have hplain : isPlainToken (mergeMembers isPlainToken metadata token) :=
      (isPlainToken_mergeMembers_iff (hs.of_at? ht).1 htoken metadata).2 (.inr hmetadata)
    exact h path _ token (at?_merge_of_joinedTo hs hj hm ht) ht hplain htoken
  · intro h path lower token hl ht hlower htoken
    by_cases hj : JoinedTo isPlainToken (mergeLayers isPlainToken before) source path
    · obtain ⟨earlier, token', he, ht', hnot⟩ := hj path (List.prefix_refl path)
      cases ht.symm.trans ht'
      cases hl.symm.trans (at?_merge_of_joinedTo hs hj he ht)
      rcases (isPlainToken_mergeMembers_iff (hs.of_at? ht).1 htoken earlier).1 hlower with hp | hm
      · exact absurd ⟨hp, htoken⟩ hnot
      · exact h path earlier token hj he ht hm htoken
    · cases hl.symm.trans (at?_merge_of_not_joinedTo hs hj ht)
      rfl

/-! ## A description that goes -/

/-- A tree of one entry. -/
def entryAlone (name : String) (ms : Members) : Json := .object [(name, .object ms)]

/-- A group with a description, and no more. -/
def describedGroup : Json := entryAlone "g" [(Key.description, .string "before")]

/-- A token without a description. -/
def silentToken : Json :=
  entryAlone "g" [(Key.type, .string "number"), (Key.value, .number (.integer 1))]

/-- The description stays when the token comes once, and goes when it comes again. -/
theorem silentToken_repeated :
    describedGroup.isObject ∧ silentToken.isObject ∧
    mergeLayers isPlainToken ([describedGroup] ++ [silentToken]) =
      entryAlone "g" [(Key.description, .string "before"), (Key.type, .string "number"),
        (Key.value, .number (.integer 1))] ∧
    mergeLayers isPlainToken ([describedGroup] ++ [silentToken, silentToken]) = silentToken ∧
    mergeLayers isPlainToken ([describedGroup] ++ [silentToken, silentToken]) ≠
      mergeLayers isPlainToken ([describedGroup] ++ [silentToken]) := by
  decide +kernel

/-- A token with a description of its own leaves nothing of the group's, and may come again. -/
theorem mergeLayers_repeated_described :
    let source := entryAlone "g" [(Key.description, .string "after"), (Key.value, .null)]
    source.WellFormed ∧
    mergeLayers isPlainToken ([describedGroup] ++ [source, source]) =
      mergeLayers isPlainToken ([describedGroup] ++ [source]) := by
  intro source
  have hs : source.WellFormed := by
    simp [source, entryAlone, WellFormed, WellFormedMembers, Key.description, Key.value]
  refine ⟨hs, (mergeLayers_repeated_iff [describedGroup] hs).2 ?_⟩
  intro path metadata token _ hm ht hmetadata _
  have hm : describedGroup.at? path = some (.object metadata) := hm
  cases path with
  | nil =>
    cases hm
    exact absurd hmetadata (by decide)
  | cons k path =>
    have hk : "g" = k := by
      by_contra hk
      simp [describedGroup, entryAlone, at?_object_cons, Dict.get?, hk] at hm
    subst hk
    cases path with
    | nil =>
      cases hm
      cases ht
      decide
    | cons l path =>
      -- The description is a text, and so there is no object below it.
      have hm : (object [(Key.description, .string "before")]).at? (l :: path) =
        some (.object metadata) := hm
      by_cases hl : Key.description = l
      · subst hl
        cases path <;> cases hm
      · rw [at?_object_cons, Dict.get?, if_neg hl] at hm
        cases hm

end DesignTokens.Resolver
