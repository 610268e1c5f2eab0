/-
Targets of aliases. They are stored tokens: lookup goes down the children of
layers and groups, and what the index lists is stored; a token that is named by
its id is stored under it, and a group that is stands for its own token.
-/
import DesignTokens.Proofs.Store.OfNodes
import DesignTokens.Proofs.Store.UpTo
import DesignTokens.Resolution.Basic

namespace DesignTokens.Store

variable {s : Store}

theorem of_find?_children {parent : Option NodeId} {q : Node → Bool} {n : Node}
    (h : ((s.children parent).find? fun n => n.isToken && q n) = some n) :
    n.isToken ∧ ∃ p, n ∈ s.children p := by
  have hq := List.find?_some h
  rw [Bool.and_eq_true] at hq
  exact ⟨hq.1, parent, List.mem_of_find?_eq_some h⟩

theorem of_tokenBelow? {parent : Option NodeId} {names : List String} {n : Node}
    (h : s.tokenBelow? parent names = some n) : n.isToken ∧ ∃ p, n ∈ s.children p := by
  match names with
  | [] => cases h
  | [name] =>
    simp only [tokenBelow?] at h
    split at h
    · next hfind =>
      cases h
      exact of_find?_children hfind
    · obtain ⟨group, -, hown⟩ := Option.bind_eq_some_iff.1 h
      exact of_find?_children hown
  | name :: next :: names =>
    simp only [tokenBelow?] at h
    split at h
    · exact of_tokenBelow? h
    · cases h

theorem of_tokenAt? {dotted : String} {from? : Option NodeId} {n : Node}
    (h : s.tokenAt? dotted from? = some n) : n.isToken ∧ ∃ p, n ∈ s.children p := by
  rw [tokenAt?, lookup?] at h
  split at h
  · cases h
  · obtain ⟨layer, -, hbelow⟩ := List.exists_of_findSome?_eq_some h
    exact of_tokenBelow? hbelow

/-- A token that is named by its id is meant itself. -/
theorem target_id_of_token {id : NodeId} {n : Node} (hn : s.node? id = some n) (htoken : n.isToken)
    (holder : NodeId) : s.target (.id id) holder = .ok n := by
  simp only [target, hn, if_pos htoken]

/-- A group that is named by its id stands for its own token. -/
theorem target_id_of_group {id : NodeId} {g r : Node} (hg : s.node? id = some g)
    (hgroup : g.isGroup) (hroot : s.ownToken? id = some r) (holder : NodeId) :
    s.target (.id id) holder = .ok r := by
  have htoken : ¬ g.isToken := by
    obtain ⟨c, hc⟩ := Node.isGroup_iff.1 hgroup
    simp [Node.isToken, Node.token?, hc]
  simp only [target, hg, if_neg htoken, if_pos hgroup, hroot]

/-- What an alias leads to is a stored token. -/
theorem Consistent.stored_of_target (hc : s.Consistent) {ref : Alias} {holder : NodeId} {m : Node}
    (h : s.target ref holder = .ok m) : s.node? m.id = some m ∧ m.isToken := by
  have hlisted : (m.isToken ∧ ∃ p, m ∈ s.children p) → s.node? m.id = some m ∧ m.isToken :=
    fun ⟨htoken, p, hmem⟩ => ⟨(hc.mem_children_iff.1 hmem).1, htoken⟩
  simp only [target] at h
  split at h
  · next n hn =>
    cases h
    split at hn
    · exact hlisted (of_tokenAt? hn)
    · next id =>
      split at hn
      · cases hn
      next n' hn' =>
      split at hn
      · next htoken =>
        cases hn
        exact ⟨hc.id_of_node? hn' ▸ hn', htoken⟩
      · split at hn
        · exact hlisted (of_find?_children hn)
        · cases hn
  · cases h

end DesignTokens.Store
