/-
The stores that batches lead to, and what holds of all of them: nodes, sequence
numbers and lists of children agree (`reachable_agreement`). No batch needs a
precondition for that. It may set a node below a parent that is missing or that
is the node itself, move a node and delete its old parent, or delete an id and
set it again.
-/
import Mathlib.Data.List.Nodup
import DesignTokens.Proofs.Store.Invariant
import DesignTokens.Proofs.Text.ByteOrder

namespace DesignTokens.Store

/-- What commits lead to from the empty store, each of a batch of any writes in any order. -/
inductive Reachable : Store → Prop
  | empty : Reachable .empty
  | commit {s : Store} (ws : List Write) :
      Reachable s → Reachable (s.commit (ws.foldl Batch.write .empty))

theorem Reachable.consistent {s : Store} (h : s.Reachable) : s.Consistent := by
  induction h with
  | empty => exact .empty
  | commit ws _ ih => exact ih.commit _

/-- The sequence number of a stored node. -/
def seq? (s : Store) (id : NodeId) : Option Nat := (Dict.get? s.entries id).map (·.seq)

/-- One sibling stands before another: by the bytes of the keys, then by sequence numbers. -/
def Precedes (s : Store) (a b : Node) : Prop :=
  Pointer.utf8 a.order.toList < Pointer.utf8 b.order.toList ∨
    a.order = b.order ∧ ∃ i j, s.seq? a.id = some i ∧ s.seq? b.id = some j ∧ i < j

theorem Precedes.asymm {s : Store} {a b : Node} (hab : s.Precedes a b) : ¬ s.Precedes b a := by
  intro hba
  rcases hab with hab | ⟨he, i, j, hi, hj, hij⟩
  · rcases hba with hba | ⟨he, -⟩
    · exact List.lt_asymm hab hba
    · rw [he] at hab
      exact List.lt_irrefl _ hab
  · rcases hba with hba | ⟨-, i', j', hi', hj', hij'⟩
    · rw [he] at hba
      exact List.lt_irrefl _ hba
    · rw [hi] at hj'
      rw [hj] at hi'
      cases hj'
      cases hi'
      exact Nat.lt_asymm hij hij'

namespace Consistent

variable {s : Store} (h : s.Consistent)

include h

theorem get?_eq_some_iff {id : NodeId} {c : Stored} :
    Dict.get? s.entries id = some c ↔ (id, c) ∈ s.entries :=
  Dict.get?_eq_some_iff h.nodup_ids

theorem id_of_node? {id : NodeId} {n : Node} (hn : s.node? id = some n) : n.id = id := by
  obtain ⟨c, hc, rfl⟩ := Option.map_eq_some_iff.1 hn
  exact h.own_id id c (h.get?_eq_some_iff.1 hc)

theorem map_id_nodes : s.nodes.map Node.id = s.ids := by
  rw [nodes, ids, Dict.keys, List.map_map]
  exact List.map_congr_left fun e he => h.own_id e.1 e.2 he

theorem eq_of_seq?_eq {a b : NodeId} {i : Nat} (ha : s.seq? a = some i) (hb : s.seq? b = some i) :
    a = b := by
  obtain ⟨c, hc, rfl⟩ := Option.map_eq_some_iff.1 ha
  obtain ⟨d, hd, hs⟩ := Option.map_eq_some_iff.1 hb
  have he := h.eq_of_seq_eq (h.get?_eq_some_iff.1 hd) (h.get?_eq_some_iff.1 hc) hs
  exact (congrArg Prod.fst he).symm

theorem seq?_lt {id : NodeId} {i : Nat} (hi : s.seq? id = some i) : i < s.nextSeq := by
  obtain ⟨c, hc, rfl⟩ := Option.map_eq_some_iff.1 hi
  exact h.seq_lt id c (h.get?_eq_some_iff.1 hc)

theorem pairwise_ids :
    s.ids.Pairwise fun a b => ∃ i j, s.seq? a = some i ∧ s.seq? b = some j ∧ i < j := by
  have hseq : ∀ e ∈ s.entries, s.seq? e.1 = some e.2.seq := by
    intro e he
    rw [seq?, h.get?_eq_some_iff.2 he, Option.map_some]
  have hasc : s.entries.Pairwise fun a b => a.2.seq < b.2.seq := List.pairwise_map.1 h.ascending
  rw [ids, Dict.keys, List.pairwise_map]
  exact hasc.imp_of_mem fun ha hb hab => ⟨_, _, hseq _ ha, hseq _ hb, hab⟩

theorem mem_children_iff {p : Option NodeId} {n : Node} :
    n ∈ s.children p ↔ s.node? n.id = some n ∧ n.parent = p := by
  rw [children_eq, List.mem_map]
  constructor
  · rintro ⟨c, hc, rfl⟩
    obtain ⟨hmem, hp⟩ := (h.mem_listed p c).1 hc
    exact ⟨by rw [node?, h.get?_eq_some_iff.2 hmem, Option.map_some], hp⟩
  · rintro ⟨hn, hp⟩
    obtain ⟨c, hc, rfl⟩ := Option.map_eq_some_iff.1 hn
    exact ⟨c, (h.mem_listed p c).2 ⟨h.get?_eq_some_iff.1 hc, hp⟩, rfl⟩

theorem pairwise_children (p : Option NodeId) : (s.children p).Pairwise s.Precedes := by
  rw [children_eq, List.pairwise_map]
  refine (h.sorted p).imp_of_mem fun {a b} ha hb hab => ?_
  have hseq : ∀ c ∈ listed s.index p, s.seq? c.node.id = some c.seq := by
    intro c hc
    rw [seq?, h.get?_eq_some_iff.2 ((h.mem_listed p c).1 hc).1, Option.map_some]
  rcases hab with hlt | ⟨he, hs⟩
  · exact .inl (Text.utf8_lt_utf8_iff.2 hlt)
  · exact .inr ⟨he, _, _, hseq a ha, hseq b hb, hs⟩

theorem nodup_children (p : Option NodeId) : (s.children p).Nodup := by
  refine (h.pairwise_children p).imp ?_
  rintro a b hab rfl
  exact hab.asymm hab

/-- The order settles the list of children: any list of them in that order is the one listed. -/
theorem children_eq_of_pairwise {p : Option NodeId} {l : List Node} (hl : l.Pairwise s.Precedes)
    (hmem : ∀ n, n ∈ l ↔ s.node? n.id = some n ∧ n.parent = p) : s.children p = l := by
  have hnodup : l.Nodup := by
    refine hl.imp ?_
    rintro a b hab rfl
    exact hab.asymm hab
  have hperm : (s.children p).Perm l := by
    refine (List.perm_ext_iff_of_nodup (h.nodup_children p) hnodup).2 fun n => ?_
    rw [h.mem_children_iff, hmem]
  exact hperm.eq_of_pairwise (fun _ _ _ _ hab hba => absurd hba hab.asymm)
    (h.pairwise_children p) hl

theorem get?_index_ne (p : Option NodeId) : Dict.get? s.index p ≠ some [] :=
  fun hp => h.nonempty p [] (Dict.mem_of_get? hp) rfl

end Consistent

/-- **The index agrees with the nodes.** In every store that batches lead to,
each node is stored under its own id; sequence numbers belong to the stored ids
alone, are distinct, lie below the counter and ascend along the nodes; and every
parent, whether it is stored or not, has for its children exactly the stored
nodes that name it, each once, in the order of key bytes and sequence numbers. -/
theorem reachable_agreement {s : Store} (h : s.Reachable) :
    (s.nodes.map Node.id = s.ids ∧ s.ids.Nodup) ∧
    ((∀ id, (s.seq? id).isSome ↔ s.contains id) ∧
      (∀ a b i, s.seq? a = some i → s.seq? b = some i → a = b) ∧
      (∀ id i, s.seq? id = some i → i < s.nextSeq) ∧
      s.ids.Pairwise fun a b => ∃ i j, s.seq? a = some i ∧ s.seq? b = some j ∧ i < j) ∧
    (∀ p, (∀ n, n ∈ s.children p ↔ s.node? n.id = some n ∧ n.parent = p) ∧
      (s.children p).Nodup ∧ (s.children p).Pairwise s.Precedes) ∧
    ∀ p, Dict.get? s.index p ≠ some [] := by
  have hc := h.consistent
  refine ⟨⟨hc.map_id_nodes, hc.nodup_ids⟩, ⟨fun id => ?_, fun _ _ _ => hc.eq_of_seq?_eq,
    fun _ _ => hc.seq?_lt, hc.pairwise_ids⟩, fun p => ⟨fun n => hc.mem_children_iff,
    hc.nodup_children p, hc.pairwise_children p⟩, hc.get?_index_ne⟩
  simp [seq?, contains, node?]

/-- Two groups with a token each; then one batch that moves a token to the other
group, deletes the group it came from and sets that again below itself. -/
def afterMove : Store :=
  let group (id : String) (parent : Option NodeId) : Node :=
    ⟨⟨id⟩, parent, "a0", .group ⟨id, .none, none⟩⟩
  let token (id parent : String) : Node :=
    ⟨⟨id⟩, some ⟨parent⟩, "a0", .token ⟨id, .none, none, .aliasTo (.path "x")⟩⟩
  let before := Store.empty.commit
    ([Write.extend [group "p" none, group "q" none], .set (token "x" "p"),
      .set (token "y" "q")].foldl Batch.write .empty)
  before.commit ([Write.delete ⟨"p"⟩, .set (token "x" "q"), .set (group "p" (some ⟨"p"⟩))].foldl
    Batch.write .empty)

theorem reachable_afterMove : afterMove.Reachable := .commit _ (.commit _ .empty)

/-- The moved token stands before its new sibling, since it has kept its number. -/
theorem agreement_afterMove :
    afterMove.Reachable ∧
    (∀ n, n ∈ afterMove.children (some ⟨"q"⟩) ↔
      afterMove.node? n.id = some n ∧ n.parent = some ⟨"q"⟩) ∧
    (afterMove.children (some ⟨"q"⟩)).map (fun n => n.id.text) = ["x", "y"] ∧
    (afterMove.children (some ⟨"p"⟩)).map (fun n => n.id.text) = ["p"] :=
  have hr := reachable_afterMove
  ⟨hr, ((reachable_agreement hr).2.2.1 _).1, by decide, by decide⟩

end DesignTokens.Store
