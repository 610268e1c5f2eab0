/-
A node replaced where it stands. A new node under an id that is stored keeps
the place of that id among the nodes, and if its parent and its key are those
of the old node, its place among the siblings as well.
-/
import DesignTokens.Proofs.Store.Reachable

namespace DesignTokens.Store

theorem node?_put (s : Store) (n : Node) (id : NodeId) :
    (s.put n).node? id = if n.id = id then some n else s.node? id := by
  have hentry : ∀ c : Stored, (Dict.get? (Dict.insert s.entries n.id c) id).map (·.node)
      = if n.id = id then some c.node else s.node? id := by
    intro c
    by_cases hid : n.id = id
    · simp [hid]
    · simp [hid, Dict.get?_insert_of_ne, node?]
  unfold put
  split
  · exact hentry ⟨n, s.nextSeq⟩
  · next old _ => exact hentry ⟨n, old.seq⟩

section

variable {s : Store} {n m : Node} (hm : s.node? n.id = some m)

include hm

theorem ids_put : (s.put n).ids = s.ids := by
  obtain ⟨old, hold, -⟩ := Option.map_eq_some_iff.1 hm
  rw [put_present hold, ids, Dict.keys_insert, if_pos (Dict.mem_keys_of_get? hold), ids]

theorem seq?_put (id : NodeId) : (s.put n).seq? id = s.seq? id := by
  obtain ⟨old, hold, -⟩ := Option.map_eq_some_iff.1 hm
  rw [put_present hold, seq?, seq?]
  by_cases hid : n.id = id
  · subst hid
    rw [Dict.get?_insert_self, hold, Option.map_some, Option.map_some]
  · rw [Dict.get?_insert_of_ne _ _ hid]

end

/-- A node with a different one put under its id, and any other node as it is. -/
def replaced (n c : Node) : Node := if c.id = n.id then n else c

theorem replaced_of_id_eq {n c : Node} (hid : c.id = n.id) : replaced n c = n := if_pos hid

theorem replaced_of_id_ne {n c : Node} (hid : c.id ≠ n.id) : replaced n c = c := if_neg hid

namespace Consistent

variable {s : Store} (h : s.Consistent) {n m : Node} (hm : s.node? n.id = some m)

include h hm

theorem eq_of_mem_children {p : Option NodeId} {c : Node} (hc : c ∈ s.children p)
    (hid : c.id = n.id) : c = m := by
  have hstored := (h.mem_children_iff.1 hc).1
  rw [hid, hm] at hstored
  exact (Option.some.inj hstored).symm

/-- Sequence numbers stay, so siblings whose keys stay keep their order. -/
theorem precedes_replaced (horder : n.order = m.order) {p : Option NodeId} {a b : Node}
    (ha : a ∈ s.children p) (hb : b ∈ s.children p) (hab : s.Precedes a b) :
    (s.put n).Precedes (replaced n a) (replaced n b) := by
  have hkept : ∀ c ∈ s.children p, (replaced n c).order = c.order ∧
      (s.put n).seq? (replaced n c).id = s.seq? c.id := by
    intro c hc
    rw [seq?_put hm]
    by_cases hid : c.id = n.id
    · rw [replaced_of_id_eq hid, horder, ← hid, h.eq_of_mem_children hm hc hid]
      exact ⟨rfl, rfl⟩
    · rw [replaced_of_id_ne hid]
      exact ⟨rfl, rfl⟩
  rw [Precedes, (hkept a ha).1, (hkept b hb).1, (hkept a ha).2, (hkept b hb).2]
  exact hab

theorem mem_map_replaced_iff (hparent : n.parent = m.parent) {p : Option NodeId} {c : Node} :
    c ∈ (s.children p).map (replaced n) ↔ (s.put n).node? c.id = some c ∧ c.parent = p := by
  rw [List.mem_map, node?_put]
  constructor
  · rintro ⟨c, hc, rfl⟩
    obtain ⟨hstored, hp⟩ := h.mem_children_iff.1 hc
    by_cases hid : c.id = n.id
    · rw [replaced_of_id_eq hid, if_pos rfl, hparent, ← h.eq_of_mem_children hm hc hid]
      exact ⟨rfl, hp⟩
    · rw [replaced_of_id_ne hid, if_neg (Ne.symm hid)]
      exact ⟨hstored, hp⟩
  · rintro ⟨hstored, hp⟩
    by_cases hid : n.id = c.id
    · rw [if_pos hid, Option.some.injEq] at hstored
      subst hstored
      have hmid : m.id = n.id := h.id_of_node? hm
      exact ⟨m, h.mem_children_iff.2 ⟨hmid ▸ hm, hparent ▸ hp⟩, replaced_of_id_eq hmid⟩
    · rw [if_neg hid] at hstored
      exact ⟨c, h.mem_children_iff.2 ⟨hstored, hp⟩, replaced_of_id_ne (Ne.symm hid)⟩

/-- A node that keeps its parent and its key takes the place of the old one. -/
theorem children_put (horder : n.order = m.order) (hparent : n.parent = m.parent)
    (p : Option NodeId) : (s.put n).children p = (s.children p).map (replaced n) := by
  refine (h.put n).children_eq_of_pairwise ?_ fun c => h.mem_map_replaced_iff hm hparent
  rw [List.pairwise_map]
  exact (h.pairwise_children p).imp_of_mem fun ha hb => h.precedes_replaced hm horder ha hb

end Consistent

end DesignTokens.Store
