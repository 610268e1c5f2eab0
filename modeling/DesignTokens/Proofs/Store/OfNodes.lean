/-
The store that holds a list of nodes. Where their ids are distinct and siblings
stand in the order of their keys, nothing is lost or moved: the nodes are those
of the list, and the children of a parent are the ones that name it, in the
order of the list (`nodes_ofNodes`, `children_ofNodes`).
-/
import DesignTokens.Proofs.Store.Reachable

namespace DesignTokens.Store

theorem extend_eq_append {b : Batch} {ns : List Node} (h : (ns.map Node.id).Nodup)
    (hb : ∀ n ∈ ns, n.id ∉ Dict.keys b) : b.extend ns = b ++ ns.map fun n => (n.id, some n) := by
  induction ns generalizing b with
  | nil => simp [Batch.extend]
  | cons n ns ih =>
    rw [List.map_cons, List.nodup_cons] at h
    have hset : b.set n = b ++ [(n.id, some n)] :=
      Dict.insert_of_notMem (hb n (List.mem_cons_self ..)) _
    have hrest : ∀ m ∈ ns, m.id ∉ Dict.keys (b.set n) := by
      intro m hm hk
      rw [hset, Dict.keys, List.map_append, List.mem_append] at hk
      rcases hk with hk | hk
      · exact hb m (List.mem_cons_of_mem _ hm) hk
      · have he : m.id = n.id := by simpa using hk
        exact h.1 (he ▸ List.mem_map_of_mem hm)
    rw [Batch.extend, List.foldl_cons, ← Batch.extend, ih h.2 hrest, hset, List.map_cons,
      List.append_assoc, List.singleton_append]

theorem nodes_commit {s : Store} (hs : s.Consistent) {ns : List Node}
    (h : (ns.map Node.id).Nodup) (hn : ∀ n ∈ ns, n.id ∉ s.ids) :
    (s.commit (ns.map fun n => (n.id, some n))).nodes = s.nodes ++ ns := by
  induction ns generalizing s with
  | nil => simp [commit]
  | cons n ns ih =>
    rw [List.map_cons, List.nodup_cons] at h
    have hput := put_new (hn n (List.mem_cons_self ..))
    have hids : (s.put n).ids = s.ids ++ [n.id] := by
      rw [hput, ids, Dict.keys, List.map_append]
      rfl
    have hnodes : (s.put n).nodes = s.nodes ++ [n] := by
      rw [hput, nodes, List.map_append]
      rfl
    have hrest : ∀ m ∈ ns, m.id ∉ (s.put n).ids := by
      intro m hm hk
      rw [hids, List.mem_append, List.mem_singleton] at hk
      rcases hk with hk | he
      · exact hn m (List.mem_cons_of_mem _ hm) hk
      · exact h.1 (he ▸ List.mem_map_of_mem hm)
    have := ih (hs.put n) h.2 hrest
    rw [hnodes, List.append_assoc, List.singleton_append] at this
    exact this

theorem reachable_ofNodes (ns : List Node) : (ofNodes ns).Reachable :=
  .commit [.extend ns] .empty

/-- Nodes under distinct ids are all there, in their order. -/
theorem nodes_ofNodes {ns : List Node} (h : (ns.map Node.id).Nodup) : (ofNodes ns).nodes = ns := by
  rw [ofNodes, extend_eq_append h (by simp [Batch.empty]), Batch.empty, List.nil_append,
    nodes_commit .empty h (by simp [empty, ids])]
  rfl

namespace Consistent

variable {s : Store} (h : s.Consistent)

include h

theorem node?_eq_some_iff {id : NodeId} {n : Node} :
    s.node? id = some n ↔ n ∈ s.nodes ∧ n.id = id := by
  refine ⟨fun hn => ⟨?_, h.id_of_node? hn⟩, fun ⟨hn, hid⟩ => ?_⟩
  · obtain ⟨c, hc, he⟩ := Option.map_eq_some_iff.1 hn
    exact List.mem_map.2 ⟨(id, c), Dict.mem_of_get? hc, he⟩
  · obtain ⟨⟨id', c⟩, hc, he⟩ := List.mem_map.1 hn
    subst he
    have hid' : id' = id := (h.own_id _ _ hc).symm.trans hid
    subst hid'
    rw [node?, h.get?_eq_some_iff.2 hc, Option.map_some]

theorem nodup_nodes : (s.nodes.map Node.id).Nodup := h.map_id_nodes ▸ h.nodup_ids

theorem mem_children_iff_mem_nodes {p : Option NodeId} {n : Node} :
    n ∈ s.children p ↔ n ∈ s.nodes ∧ n.parent = p := by
  rw [h.mem_children_iff, h.node?_eq_some_iff]
  exact ⟨fun ⟨⟨hn, _⟩, hp⟩ => ⟨hn, hp⟩, fun ⟨hn, hp⟩ => ⟨⟨hn, rfl⟩, hp⟩⟩

theorem mem_nodes_of_mem_chainUp {k : Nat} {p : Option NodeId} {a : Node}
    (ha : a ∈ s.chainUp k p) : a ∈ s.nodes := by
  induction k generalizing p with
  | zero => cases ha
  | succ k ih =>
    cases p with
    | none => cases ha
    | some id =>
      cases hn : s.node? id with
      | none =>
        rw [chainUp, hn] at ha
        cases ha
      | some n =>
        rw [chainUp, hn] at ha
        rcases List.mem_cons.1 ha with rfl | ha
        · exact (h.node?_eq_some_iff.1 hn).1
        · exact ih ha

theorem mem_nodes_of_mem_ancestors {id : NodeId} {a : Node} (ha : a ∈ s.ancestors id) :
    a ∈ s.nodes := by
  rw [ancestors] at ha
  split at ha
  · cases ha
  · exact h.mem_nodes_of_mem_chainUp ha

end Consistent

/-- Ids are distinct, and siblings stand in the order of their keys. -/
def Kept (ns : List Node) : Prop :=
  ns.Pairwise fun a b => a.id ≠ b.id ∧ (a.parent = b.parent → a.order < b.order)

theorem Kept.nodup {ns : List Node} (h : Kept ns) : (ns.map Node.id).Nodup :=
  List.pairwise_map.2 (h.imp And.left)

/-- The children of a parent are the nodes that name it, as they stand. -/
theorem children_ofNodes {ns : List Node} (h : Kept ns) (p : Option NodeId) :
    (ofNodes ns).children p = ns.filter fun n => n.parent = p := by
  have hc := (reachable_ofNodes ns).consistent
  have hns := nodes_ofNodes h.nodup
  have hsorted : (ns.filter fun n => n.parent = p).Pairwise (ofNodes ns).Precedes := by
    refine (List.Pairwise.filter _ h).imp_of_mem fun {a b} ha hb hab => .inl ?_
    have hpa : a.parent = p := by simpa using (List.mem_filter.1 ha).2
    have hpb : b.parent = p := by simpa using (List.mem_filter.1 hb).2
    exact Text.utf8_lt_utf8_iff.2 (hab.2 (hpa.trans hpb.symm))
  refine hc.children_eq_of_pairwise hsorted fun n => ?_
  rw [← hc.mem_children_iff, hc.mem_children_iff_mem_nodes, hns, List.mem_filter,
    decide_eq_true_eq]

end DesignTokens.Store
