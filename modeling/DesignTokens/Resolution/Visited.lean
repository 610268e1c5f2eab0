/-
Walks over the nodes of a store that never enter a node twice. `unvisited`
counts the nodes still open to such a walk; it falls with each node that is
entered, which is why the walks end.
-/
import DesignTokens.Store.Basic

namespace DesignTokens.Store

/-- The number of stored nodes that a walk has not entered. -/
def unvisited (s : Store) (visited : List NodeId) : Nat :=
  (s.ids.filter fun id => id ∉ visited).length

theorem mem_ids_of_node? {s : Store} {id : NodeId} {n : Node} (h : s.node? id = some n) :
    id ∈ s.ids := by
  simp only [node?, Option.map_eq_some_iff] at h
  obtain ⟨c, hc, _⟩ := h
  exact Dict.mem_keys_of_get? hc

theorem length_filter_notMem_lt {ids visited visited' : List NodeId} {id : NodeId}
    (hid : id ∈ ids) (hv : id ∉ visited) (hv' : ∀ x, x ∈ visited' ↔ x ∈ visited ∨ x = id) :
    (ids.filter fun x => x ∉ visited').length < (ids.filter fun x => x ∉ visited).length := by
  induction ids with
  | nil => simp at hid
  | cons a ids ih =>
    have hle : (ids.filter fun x => x ∉ visited').length
        ≤ (ids.filter fun x => x ∉ visited).length := by
      have h : ∀ x, decide (x ∉ visited') = true → decide (x ∉ visited) = true := by
        intro x hx
        simp only [decide_eq_true_eq, hv', not_or] at hx ⊢
        exact hx.1
      rw [← List.countP_eq_length_filter, ← List.countP_eq_length_filter]
      exact List.countP_mono_left fun x _ => h x
    by_cases ha : a = id
    · subst ha
      have h1 : a ∈ visited' := (hv' a).2 (.inr rfl)
      rw [List.filter_cons_of_neg (by simpa using h1), List.filter_cons_of_pos (by simpa using hv)]
      exact Nat.lt_succ_of_le hle
    · have hid' : id ∈ ids := by
        rcases List.mem_cons.1 hid with h | h
        · exact absurd h.symm ha
        · exact h
      by_cases hav : a ∈ visited
      · have h1 : a ∈ visited' := (hv' a).2 (.inl hav)
        simpa [h1, hav] using ih hid'
      · have h1 : a ∉ visited' := fun h => ((hv' a).1 h).elim hav ha
        simpa [h1, hav] using ih hid'

/-- Entering a node at the head of the list of those visited. -/
theorem unvisited_cons_lt {s : Store} {visited : List NodeId} {id : NodeId} (h : id ∈ s.ids)
    (hv : id ∉ visited) : s.unvisited (id :: visited) < s.unvisited visited :=
  length_filter_notMem_lt h hv fun x => by simp [or_comm]

/-- Entering a node at the end of the list of those visited. -/
theorem unvisited_append_lt {s : Store} {visited : List NodeId} {id : NodeId} (h : id ∈ s.ids)
    (hv : id ∉ visited) : s.unvisited (visited ++ [id]) < s.unvisited visited :=
  length_filter_notMem_lt h hv fun x => by simp

end DesignTokens.Store
