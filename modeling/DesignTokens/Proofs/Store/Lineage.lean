/-
The way up from a node, whatever lies on it. A node lies in another if the
parents lead from it there (`LiesIn`). Parents may lead in a circle, or to an id
that is not stored; where they lead to a root they name every node on the way
once (`Lineage`), and the walk that gives the ancestors comes to its end.
-/
import DesignTokens.Proofs.Store.UpTo

namespace DesignTokens.Store

/-- A stored node is the one with an id, or one that the parents lead to from there. -/
inductive LiesIn (s : Store) (a : Node) : NodeId → Prop
  | here {id : NodeId} (stored : s.node? id = some a) : LiesIn s a id
  | up {id p : NodeId} {n : Node} (stored : s.node? id = some n) (parent : n.parent = some p)
      (rest : LiesIn s a p) : LiesIn s a id

/-- The nodes from a parent up to a root, the nearest first. -/
inductive Lineage (s : Store) : Option NodeId → List Node → Prop
  | root : Lineage s none []
  | up {id : NodeId} {n : Node} {above : List Node} (stored : s.node? id = some n)
      (rest : Lineage s n.parent above) : Lineage s (some id) (n :: above)

variable {s : Store}

/-! ## Lying in a node -/

/-- Of two nodes that something lies in, one lies in the other. -/
theorem LiesIn.total {a b : Node} {id : NodeId} (ha : s.LiesIn a id) (hb : s.LiesIn b id)
    (hstored : s.node? a.id = some a) (hstored' : s.node? b.id = some b) :
    s.LiesIn a b.id ∨ s.LiesIn b a.id := by
  induction ha with
  | here stored =>
    cases hb with
    | here stored' =>
      cases stored.symm.trans stored'
      exact .inl (.here hstored)
    | up stored' parent rest =>
      cases stored.symm.trans stored'
      exact .inr (.up hstored parent rest)
  | up stored parent rest ih =>
    cases hb with
    | here stored' =>
      cases stored.symm.trans stored'
      exact .inl (.up hstored' parent rest)
    | up stored' parent' rest' =>
      cases stored.symm.trans stored'
      cases parent.symm.trans parent'
      exact ih rest'

theorem liesIn_of_mem_chainUp {k : Nat} {p : Option NodeId} {a : Node} (ha : a ∈ s.chainUp k p) :
    ∃ id, p = some id ∧ s.LiesIn a id := by
  induction k generalizing p with
  | zero => cases ha
  | succ k ih =>
    cases p with
    | none => cases ha
    | some id =>
      refine ⟨id, rfl, ?_⟩
      cases hn : s.node? id with
      | none =>
        rw [chainUp, hn] at ha
        cases ha
      | some n =>
        rw [chainUp, hn] at ha
        rcases List.mem_cons.1 ha with rfl | ha
        · exact .here hn
        · obtain ⟨p, hp, hlies⟩ := ih ha
          exact .up hn hp hlies

/-- A node lies in itself and in its ancestors. -/
theorem liesIn_of_mem_around {id : NodeId} {a : Node}
    (ha : a ∈ (s.node? id).toList ++ s.ancestors id) : s.LiesIn a id := by
  rcases List.mem_append.1 ha with ha | ha
  · exact .here (Option.mem_toList.1 ha)
  · rw [ancestors] at ha
    split at ha
    · cases ha
    · next n hn =>
      obtain ⟨p, hp, hlies⟩ := liesIn_of_mem_chainUp ha
      exact .up hn hp hlies

/-! ## Up to a root -/

namespace Lineage

variable {p : Option NodeId} {above : List Node}

theorem unique (h : s.Lineage p above) {above' : List Node} (h' : s.Lineage p above') :
    above = above' := by
  induction h generalizing above' with
  | root =>
    cases h'
    rfl
  | up stored _ ih =>
    cases h' with
    | up stored' rest' =>
      cases stored.symm.trans stored'
      rw [ih rest']

theorem of_some {id : NodeId} {n : Node} (h : s.Lineage (some id) above) (hn : s.node? id = some n) :
    ∃ rest, above = n :: rest ∧ s.Lineage n.parent rest := by
  cases h with
  | up stored rest =>
    cases hn.symm.trans stored
    exact ⟨_, rfl, rest⟩

/-- From one of the nodes on there are fewer of them. -/
theorem of_mem (h : s.Lineage p above) {a : Node} (ha : a ∈ above) :
    ∃ rest, s.Lineage a.parent rest ∧ rest.length < above.length := by
  induction h with
  | root => cases ha
  | up _ rest ih =>
    rcases List.mem_cons.1 ha with rfl | ha
    · exact ⟨_, rest, Nat.lt_succ_self _⟩
    · obtain ⟨rest, hr, hl⟩ := ih ha
      exact ⟨rest, hr, Nat.lt_succ_of_lt hl⟩

/-- No node comes twice: from the second time on there would be as many as from the first. -/
theorem nodup (h : s.Lineage p above) : above.Nodup := by
  induction h with
  | root => exact .nil
  | up _ rest ih =>
    refine List.nodup_cons.2 ⟨fun ha => ?_, ih⟩
    obtain ⟨fewer, hr, hl⟩ := rest.of_mem ha
    rw [rest.unique hr] at hl
    exact Nat.lt_irrefl _ hl

theorem mem_iff {id : NodeId} (h : s.Lineage (some id) above) {a : Node} :
    a ∈ above ↔ s.LiesIn a id := by
  generalize hp : some id = p at h
  induction h generalizing id with
  | root => cases hp
  | @up id' n above stored rest ih =>
    cases hp
    constructor
    · intro ha
      rcases List.mem_cons.1 ha with rfl | ha
      · exact .here stored
      · cases hparent : n.parent with
        | none =>
          rw [hparent] at rest
          cases rest
          cases ha
        | some p => exact .up stored hparent ((ih hparent.symm).1 ha)
    · intro ha
      cases ha with
      | here stored' =>
        cases stored.symm.trans stored'
        exact List.mem_cons_self
      | up stored' parent lies =>
        cases stored.symm.trans stored'
        exact List.mem_cons_of_mem _ ((ih parent.symm).2 lies)

/-- What lies in a node that hangs on a root hangs on that root itself. -/
theorem of_liesIn {a : Node} (h : s.Lineage a.parent above) {id : NodeId} (ha : s.LiesIn a id) :
    ∃ l, s.Lineage (some id) l := by
  induction ha with
  | here stored => exact ⟨_, .up stored h⟩
  | up stored parent _ ih =>
    obtain ⟨l, hl⟩ := ih
    exact ⟨_, .up stored (parent ▸ hl)⟩

theorem chainUp_eq (h : s.Lineage p above) {k : Nat} (hk : above.length ≤ k) :
    s.chainUp k p = above := by
  induction h generalizing k with
  | root => cases k <;> rfl
  | up stored _ ih =>
    cases k with
    | zero => cases hk
    | succ k =>
      rw [chainUp, stored]
      exact congrArg _ (ih (Nat.le_of_succ_le_succ hk))

variable (hc : s.Consistent)

include hc

theorem stored_of_mem (h : s.Lineage p above) {a : Node} (ha : a ∈ above) :
    s.node? a.id = some a := by
  induction h with
  | root => cases ha
  | up stored _ ih =>
    rcases List.mem_cons.1 ha with rfl | ha
    · rw [hc.id_of_node? stored, stored]
    · exact ih ha

theorem length_le (h : s.Lineage p above) : above.length ≤ s.size :=
  length_le_size (fun _ ha => h.stored_of_mem hc ha) h.nodup

/-- At the end of the way stands a root. -/
theorem exists_root {id : NodeId} (h : s.Lineage (some id) above) :
    ∃ n ∈ s.children none, s.LiesIn n id := by
  generalize hp : some id = p at h
  induction h generalizing id with
  | root => cases hp
  | @up id' n above stored rest ih =>
    cases hp
    cases hparent : n.parent with
    | none =>
      obtain rfl := hc.id_of_node? stored
      exact ⟨n, hc.mem_children_iff.2 ⟨stored, hparent⟩, .here stored⟩
    | some p =>
      obtain ⟨m, hm, lies⟩ := ih hparent.symm
      exact ⟨m, hm, .up stored hparent lies⟩

/-- The walk up to the ancestors comes to the root. -/
theorem around_eq {id : NodeId} (h : s.Lineage (some id) above) :
    (s.node? id).toList ++ s.ancestors id = above := by
  cases h with
  | up stored rest =>
    rw [ancestors, stored]
    exact congrArg _ (rest.chainUp_eq (rest.length_le hc))

end Lineage

end DesignTokens.Store
