/-
Lists of siblings. The order of siblings is total on nodes with distinct
sequence numbers, so a child put into a sorted list leaves it sorted.
-/
import DesignTokens.Store.Basic

namespace DesignTokens

theorem Stored.Before.trans {a b c : Stored} (hab : a.Before b) (hbc : b.Before c) :
    a.Before c := by
  rcases hab with hab | ⟨hab, hs⟩
  · rcases hbc with hbc | ⟨hbc, -⟩
    · exact .inl (String.lt_trans hab hbc)
    · exact .inl (hbc ▸ hab)
  · rcases hbc with hbc | ⟨hbc, hs'⟩
    · exact .inl (hab ▸ hbc)
    · exact .inr ⟨hab.trans hbc, Nat.lt_trans hs hs'⟩

theorem Stored.before_or_before {a b : Stored} (h : a.seq ≠ b.seq) : a.Before b ∨ b.Before a := by
  by_cases hab : a.node.order < b.node.order
  · exact .inl (.inl hab)
  · by_cases hba : b.node.order < a.node.order
    · exact .inr (.inl hba)
    · have he : a.node.order = b.node.order := String.le_antisymm hba hab
      rcases Nat.lt_or_gt_of_ne h with hs | hs
      · exact .inl (.inr ⟨he, hs⟩)
      · exact .inr (.inr ⟨he.symm, hs⟩)

namespace Store

theorem mem_insertSorted {c d : Stored} {l : List Stored} :
    d ∈ insertSorted c l ↔ d = c ∨ d ∈ l := by
  induction l with
  | nil => simp [insertSorted]
  | cons e l ih =>
    rw [insertSorted]
    split
    · simp
    · simp only [List.mem_cons, ih]
      exact or_left_comm

theorem insertSorted_ne_nil (c : Stored) (l : List Stored) : insertSorted c l ≠ [] :=
  List.ne_nil_of_mem (mem_insertSorted.2 (.inl rfl))

theorem sorted_insertSorted {c : Stored} {l : List Stored} (h : l.Pairwise Stored.Before)
    (hc : ∀ d ∈ l, d.seq ≠ c.seq) : (insertSorted c l).Pairwise Stored.Before := by
  induction l with
  | nil => simp [insertSorted]
  | cons e l ih =>
    obtain ⟨he, hl⟩ := List.pairwise_cons.1 h
    rw [insertSorted]
    split
    · next hce =>
      refine List.pairwise_cons.2 ⟨fun d hd => ?_, h⟩
      rcases List.mem_cons.1 hd with rfl | hd
      · exact hce
      · exact hce.trans (he d hd)
    · next hce =>
      have hec : e.Before c := (Stored.before_or_before (hc e (by simp))).resolve_right hce
      refine List.pairwise_cons.2 ⟨fun d hd => ?_, ih hl fun d hd => hc d (by simp [hd])⟩
      rcases mem_insertSorted.1 hd with rfl | hd
      · exact hec
      · exact he d hd

/-- The children that the index lists under a parent. -/
def listed (index : List (Option NodeId × List Stored)) (p : Option NodeId) : List Stored :=
  (Dict.get? index p).getD []

theorem children_eq (s : Store) (p : Option NodeId) :
    s.children p = (listed s.index p).map (·.node) := rfl

theorem listed_enlist (index : List (Option NodeId × List Stored)) (c : Stored)
    (p : Option NodeId) :
    listed (enlist index c) p =
      if c.node.parent = p then insertSorted c (listed index p) else listed index p := by
  by_cases hp : c.node.parent = p
  · subst hp
    simp [listed, enlist]
  · simp [listed, enlist, hp, Dict.get?_insert_of_ne]

theorem listed_unlist (index : List (Option NodeId × List Stored)) (c : Stored)
    (p : Option NodeId) :
    listed (unlist index c) p =
      if c.node.parent = p then (listed index p).filter fun d => d.node.id ≠ c.node.id
      else listed index p := by
  unfold unlist
  split
  · next hg =>
    split
    · next hp =>
      subst hp
      simp [listed, hg]
    · rfl
  · next siblings hg =>
    by_cases hp : c.node.parent = p
    · subst hp
      simp only [if_true]
      split
      · next hr =>
        simp only [listed, Dict.get?_erase_self, hg, Option.getD_none, Option.getD_some]
        exact hr.symm
      · simp [listed, hg]
    · simp only [if_neg hp]
      split
      · simp [listed, Dict.get?_erase_of_ne _ hp]
      · simp [listed, Dict.get?_insert_of_ne _ _ hp]

end Store

end DesignTokens
