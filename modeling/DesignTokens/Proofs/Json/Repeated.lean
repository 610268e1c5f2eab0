/-
A layer that is merged twice in a row. The second time meets its own values, and
these stay as they are, so it can only do something where it replaces one object
by another as a whole: where the merged document and the layer both have leaves,
and different ones (`merge_merge_eq_iff`). Without leaves it never does.

A leaf of the merged document need not be a leaf of one of the layers. That is
why, with leaves, a repeated layer may well change the document.
-/
import DesignTokens.Proofs.Json.Joined

namespace DesignTokens.Json

variable {isLeaf : Members → Bool}

/-- Members whose values have no effect where they stand already have none together. -/
theorem mergeMembers_eq_self {lower upper : Members}
    (h : ∀ k v, (k, v) ∈ upper → ∃ u, Dict.get? lower k = some u ∧ merge isLeaf u v = u) :
    mergeMembers isLeaf lower upper = lower := by
  induction upper with
  | nil => rw [mergeMembers]
  | cons m upper ih =>
    obtain ⟨k, v⟩ := m
    obtain ⟨u, hu, huv⟩ := h k v List.mem_cons_self
    have hinsert : Dict.insert lower k (merge isLeaf u v) = lower := by
      rw [huv, Dict.insert_of_get? hu]
    rw [mergeMembers, hu, hinsert]
    exact ih fun l w hw => h l w (List.mem_cons_of_mem _ hw)

/-- A value merged into itself stays as it is. -/
theorem merge_self : (v : Json) → v.WellFormed → merge isLeaf v v = v
  | .object ms, ⟨hn, hms⟩ => by
    rw [merge]
    split
    · rfl
    · refine congrArg _ (mergeMembers_eq_self fun k v hm => ?_)
      have hlt := sizeOf_lt_of_mem hm
      have hv := Dict.get?_of_mem hn hm
      exact ⟨v, hv, merge_self v (.of_get? hms hv)⟩
  | .null, _ | .bool _, _ | .number _, _ | .string _, _ | .array _, _ => merge_of_not_object _ rfl

/-- A layer changes nothing in what it has left itself, unless it replaces a leaf there. -/
theorem merge_merge_of_leaves_eq : (overlay : Json) → overlay.WellFormed → ∀ base : Json,
    (∀ path lower upper, (merge isLeaf base overlay).at? path = some (.object lower) →
      overlay.at? path = some (.object upper) → isLeaf lower → isLeaf upper → lower = upper) →
    merge isLeaf (merge isLeaf base overlay) overlay = merge isLeaf base overlay
  | .object upper, ho, base, hleaves => by
    by_cases hj : Joined isLeaf base (.object upper) []
    · obtain ⟨lower, _, hl, hu, hnot⟩ := hj
      cases hl
      cases hu
      rw [merge_objects hnot] at hleaves ⊢
      by_cases hboth : isLeaf (mergeMembers isLeaf lower upper) ∧ isLeaf upper
      · rw [hleaves [] _ upper rfl rfl hboth.1 hboth.2]
        exact merge_self _ ho
      rw [merge_objects hboth]
      refine congrArg _ (mergeMembers_eq_self fun k v hm => ?_)
      have hlt := sizeOf_lt_of_mem hm
      have hv := Dict.get?_of_mem ho.1 hm
      have hmerged : Dict.get? (mergeMembers isLeaf lower upper) k =
          some (mergeInto isLeaf (Dict.get? lower k) v) := by
        rw [get?_mergeMembers ho.1, hv]
      refine ⟨_, hmerged, ?_⟩
      cases hb : Dict.get? lower k with
      | none => exact merge_self v (.of_get? ho.2 hv)
      | some u =>
        -- A path below this member is one below the whole object.
        refine merge_merge_of_leaves_eq v (.of_get? ho.2 hv) u fun path ls us hls hus => ?_
        refine hleaves (k :: path) ls us ?_ ?_
        · rw [at?_mergeMembers_cons ho.1 hb hv, hls]
        · rw [at?_object_cons, hv]
          exact hus
    · rw [merge_of_not_joined hj]
      exact merge_self _ ho
  | .null, _, base, _ | .bool _, _, base, _ | .number _, _, base, _ | .string _, _, base, _
  | .array _, _, base, _ => (merge_of_not_object _ rfl).trans (merge_of_not_object base rfl).symm

/-- **A layer merged twice.** It leaves the document as it is just if the
document and the layer have no two different leaves at one path. -/
theorem merge_merge_eq_iff {overlay : Json} (ho : overlay.WellFormed) (base : Json) :
    merge isLeaf (merge isLeaf base overlay) overlay = merge isLeaf base overlay ↔
      ∀ path lower upper, (merge isLeaf base overlay).at? path = some (.object lower) →
        overlay.at? path = some (.object upper) → isLeaf lower → isLeaf upper →
        lower = upper := by
  refine ⟨fun h path lower upper hl hu hlower hupper => ?_, merge_merge_of_leaves_eq overlay ho base⟩
  have htwice : (merge isLeaf (merge isLeaf base overlay) overlay).at? path =
      some (.object upper) := at?_merge_of_leaves ho hl hu hlower hupper
  rw [h, hl] at htwice
  cases htwice
  rfl

theorem mergeLayers_append_singleton (layers : List Json) (layer : Json) :
    mergeLayers isLeaf (layers ++ [layer]) = merge isLeaf (mergeLayers isLeaf layers) layer := by
  rw [mergeLayers, List.foldl_append]
  rfl

theorem mergeLayers_append_twice (layers : List Json) (layer : Json) :
    mergeLayers isLeaf (layers ++ [layer, layer]) =
      merge isLeaf (mergeLayers isLeaf (layers ++ [layer])) layer := by
  rw [← mergeLayers_append_singleton, List.append_assoc]
  rfl

/--
**Merging again changes nothing.** With any leaves, a single object is merged as
it is, and a value that is merged into itself stays as it is. Without leaves, a
list of layers may be followed by its last layer once more. Members keep their
order in all of this.
-/
theorem layers_idempotent :
    (∀ isLeaf ms, (object ms).WellFormed → mergeLayers isLeaf [.object ms] = .object ms) ∧
    (∀ isLeaf v, v.WellFormed → merge isLeaf v v = v) ∧
    ∀ layers layer, layer.WellFormed →
      mergeLayers (fun _ => false) (layers ++ [layer, layer]) =
        mergeLayers (fun _ => false) (layers ++ [layer]) := by
  refine ⟨fun _ _ h => mergeLayers_singleton h.1, fun _ v h => merge_self v h,
    fun layers layer h => ?_⟩
  rw [mergeLayers_append_twice, mergeLayers_append_singleton, merge_merge_eq_iff h]
  intro _ _ _ _ _ hleaf _
  cases hleaf

/-- Objects, arrays and scalars meet; the repeated layer brings its members in another order. -/
theorem layers_idempotent_mixed :
    let first : Json := .object [("a", .object [("x", .bool true)]), ("b", .array [.null]),
      ("c", .object [("y", .null)])]
    let last : Json := .object [("d", .null), ("c", .string "s"), ("b", .object [("z", .null)]),
      ("a", .object [("w", .null), ("x", .object [])])]
    last.WellFormed ∧ mergeLayers (fun _ => true) [last] = last ∧
    merge (fun ms => ms.length = 2) last last = last ∧
    mergeLayers (fun _ => false) [first, last, last] =
      .object [("a", .object [("x", .object []), ("w", .null)]), ("b", .object [("z", .null)]),
        ("c", .string "s"), ("d", .null)] := by
  intro first last
  have h : last.WellFormed := by
    simp [last, WellFormed, WellFormedMembers]
  obtain ⟨hsingle, hself, hrepeated⟩ := layers_idempotent
  exact ⟨h, hsingle _ _ h, hself _ _ h, (hrepeated [first] last h).trans (by decide)⟩

end DesignTokens.Json
