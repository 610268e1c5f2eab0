/-
Sets and modifiers at the root are given other keys. Nothing else of the nodes
changes, nor do their sequence numbers, so that all other siblings keep their
order: below every parent, and among the roots those that are no such items.
The items themselves stay at the root in some other order.

`Rekeyed` says so of two stores, and `rekeyed_of_reorders` that batches which do
nothing but give keys lead from one to the other.
-/
import DesignTokens.Proofs.Store.Replace

namespace DesignTokens

namespace Node

/-- Whether a node is a set or a modifier at the root. -/
def isRootItem (n : Node) : Bool :=
  match n.parent, n.content with
  | none, .set _ | none, .modifier _ => true
  | _, _ => false

/-- The node with another key. -/
def withOrder (n : Node) (key : String) : Node := { n with order := key }

/-- A node without its key, if it is a set or a modifier at the root. -/
def keyless (n : Node) : Node := if n.isRootItem then n.withOrder "" else n

theorem keyless_of_not_rootItem {n : Node} (h : n.isRootItem = false) : n.keyless = n := by
  rw [keyless, h]
  rfl

@[simp] theorem id_keyless (n : Node) : n.keyless.id = n.id := by
  unfold keyless
  split <;> rfl

@[simp] theorem parent_keyless (n : Node) : n.keyless.parent = n.parent := by
  unfold keyless
  split <;> rfl

@[simp] theorem content_keyless (n : Node) : n.keyless.content = n.content := by
  unfold keyless
  split <;> rfl

@[simp] theorem keyless_withOrder {n : Node} (h : n.isRootItem) (key : String) :
    (n.withOrder key).keyless = n.keyless := by
  have hkey : (n.withOrder key).isRootItem = true := h
  rw [keyless, keyless, if_pos hkey, if_pos h]
  rfl

theorem isRootItem_keyless (n : Node) : n.keyless.isRootItem = n.isRootItem := by
  rw [isRootItem, isRootItem, parent_keyless, content_keyless]

theorem isRootItem_of_parent {n : Node} {p : NodeId} (h : n.parent = some p) :
    n.isRootItem = false := by
  rw [isRootItem, h]

theorem isRootItem_of_isToken {n : Node} (h : n.isToken) : n.isRootItem = false := by
  obtain ⟨_, p, _, c⟩ := n
  cases c with
  | token t => cases p <;> rfl
  | _ => cases h

theorem isRootItem_of_isGroup {n : Node} (h : n.isGroup) : n.isRootItem = false := by
  obtain ⟨_, p, _, c⟩ := n
  cases c with
  | group g => cases p <;> rfl
  | _ => cases h

section

variable {n m : Node} (h : n.keyless = m.keyless)

include h

theorem id_eq_of_keyless : n.id = m.id := by rw [← id_keyless, h, id_keyless]

theorem parent_eq_of_keyless : n.parent = m.parent := by rw [← parent_keyless, h, parent_keyless]

theorem content_eq_of_keyless : n.content = m.content := by
  rw [← content_keyless, h, content_keyless]

theorem isRootItem_eq_of_keyless : n.isRootItem = m.isRootItem := by
  rw [← isRootItem_keyless, h, isRootItem_keyless]

theorem eq_of_keyless (hn : n.isRootItem = false) : n = m := by
  rw [← keyless_of_not_rootItem hn, h,
    keyless_of_not_rootItem (isRootItem_eq_of_keyless h ▸ hn)]

end

end Node

namespace Store

/-- Two stores differ in the keys of sets and modifiers at the root, and in nothing else that is
told of nodes. -/
structure Rekeyed (s t : Store) : Prop where
  ids : s.ids = t.ids
  seq? : ∀ id, s.seq? id = t.seq? id
  node : ∀ id, (s.node? id).map Node.keyless = (t.node? id).map Node.keyless

/-- A set or a modifier that stands at the root of a store, under another key or its own. -/
def Rekeys (s : Store) (n : Node) : Prop :=
  ∃ m key, s.node? m.id = some m ∧ m.isRootItem ∧ n = m.withOrder key

/-- What batches lead to from a store that give keys to sets and modifiers at the root. -/
inductive Reorders (s : Store) : Store → Prop
  | refl : Reorders s s
  | batch {t : Store} {ns : List Node} (h : Reorders s t) (rekeys : ∀ n ∈ ns, t.Rekeys n) :
      Reorders s (t.commit (Batch.empty.extend ns))

/-! ## Siblings -/

theorem Consistent.filter_children_some {s : Store} (hs : s.Consistent) (p : NodeId) :
    (s.children (some p)).filter (fun n => !n.isRootItem) = s.children (some p) := by
  refine List.filter_eq_self.2 fun n hn => ?_
  rw [Node.isRootItem_of_parent (hs.mem_children_iff.1 hn).2]
  rfl

theorem Consistent.nodup_map_keyless {s : Store} (hs : s.Consistent) (p : Option NodeId) :
    ((s.children p).map Node.keyless).Nodup := by
  refine (hs.nodup_children p).map_on fun a ha b hb hk => ?_
  have ha' := (hs.mem_children_iff.1 ha).1
  rw [Node.id_eq_of_keyless hk, (hs.mem_children_iff.1 hb).1] at ha'
  exact (Option.some.inj ha').symm

namespace Rekeyed

variable {s t : Store} (h : s.Rekeyed t)

include h

theorem symm : t.Rekeyed s where
  ids := h.ids.symm
  seq? id := (h.seq? id).symm
  node id := (h.node id).symm

theorem exists_node {id : NodeId} {n : Node} (hn : s.node? id = some n) :
    ∃ m, t.node? id = some m ∧ m.keyless = n.keyless := by
  have hnode := h.node id
  rw [hn, Option.map_some, eq_comm, Option.map_eq_some_iff] at hnode
  exact hnode

/-- Every other node is stored as it is. -/
theorem node?_eq_some {id : NodeId} {n : Node} (hn : s.node? id = some n)
    (hitem : n.isRootItem = false) : t.node? id = some n := by
  obtain ⟨m, hm, hk⟩ := h.exists_node hn
  rw [hm, Node.eq_of_keyless hk.symm hitem]

theorem precedes_iff {a b : Node} : s.Precedes a b ↔ t.Precedes a b := by
  simp only [Precedes, h.seq?]

variable (hs : s.Consistent) (ht : t.Consistent)

include hs ht

theorem mem_children {p : Option NodeId} {n : Node} (hn : n ∈ s.children p)
    (hitem : n.isRootItem = false) : n ∈ t.children p := by
  obtain ⟨hstored, hp⟩ := hs.mem_children_iff.1 hn
  exact ht.mem_children_iff.2 ⟨h.node?_eq_some hstored hitem, hp⟩

theorem mem_map_children {p : Option NodeId} {n : Node}
    (hn : n ∈ (s.children p).map Node.keyless) : n ∈ (t.children p).map Node.keyless := by
  obtain ⟨n, hchild, rfl⟩ := List.mem_map.1 hn
  obtain ⟨hstored, hp⟩ := hs.mem_children_iff.1 hchild
  obtain ⟨m, hm, hk⟩ := h.exists_node hstored
  have hid : m.id = n.id := Node.id_eq_of_keyless hk
  refine List.mem_map.2 ⟨m, ht.mem_children_iff.2 ⟨hid ▸ hm, ?_⟩, hk⟩
  rw [Node.parent_eq_of_keyless hk, hp]

/-- The siblings that are no items stand in their order. -/
theorem filter_children (p : Option NodeId) :
    (s.children p).filter (fun n => !n.isRootItem) =
      (t.children p).filter fun n => !n.isRootItem := by
  have hmem : ∀ n, n ∈ (s.children p).filter (fun n => !n.isRootItem) ↔
      n ∈ (t.children p).filter fun n => !n.isRootItem := by
    intro n
    simp only [List.mem_filter, Bool.not_eq_true']
    exact and_congr_left fun hitem =>
      ⟨fun hn => h.mem_children hs ht hn hitem, fun hn => h.symm.mem_children ht hs hn hitem⟩
  have hperm := (List.perm_ext_iff_of_nodup ((hs.nodup_children p).filter _)
    ((ht.nodup_children p).filter _)).2 hmem
  have hsorted := ((hs.pairwise_children p).filter fun n => !n.isRootItem).imp h.precedes_iff.1
  exact hperm.eq_of_pairwise (fun _ _ _ _ hab hba => absurd hba hab.asymm) hsorted
    ((ht.pairwise_children p).filter _)

/-- Below a parent no node is an item, and all stand in their order. -/
theorem children_some (p : NodeId) : s.children (some p) = t.children (some p) := by
  have hfilter := h.filter_children hs ht (some p)
  rwa [hs.filter_children_some, ht.filter_children_some] at hfilter

/-- What is found among siblings and is no item is found among them in either store. -/
theorem find?_children {q : Node → Bool} (hq : ∀ n, q n → n.isRootItem = false)
    (p : Option NodeId) : (s.children p).find? q = (t.children p).find? q := by
  have hfilter : ∀ l : List Node, l.find? q = (l.filter fun n => !n.isRootItem).find? q := by
    intro l
    rw [List.find?_filter]
    congr 1
    funext n
    by_cases hn : q n
    · simp [hn, hq n hn]
    · simp [hn]
  rw [hfilter, h.filter_children hs ht, ← hfilter]

/-- The siblings are the same but for their keys, in some order. -/
theorem perm_children (p : Option NodeId) :
    ((s.children p).map Node.keyless).Perm ((t.children p).map Node.keyless) :=
  (List.perm_ext_iff_of_nodup (hs.nodup_map_keyless p) (ht.nodup_map_keyless p)).2
    fun _ => ⟨h.mem_map_children hs ht, h.symm.mem_map_children ht hs⟩

end Rekeyed

/-! ## Giving keys -/

variable {s t : Store}

/-- One node is put under another key. -/
theorem Rekeyed.put (h : s.Rekeyed t) {n : Node}
    (hn : (s.node? n.id).map Node.keyless = some n.keyless) : s.Rekeyed (t.put n) := by
  have hstored : (t.node? n.id).map Node.keyless = some n.keyless := (h.node n.id).symm.trans hn
  obtain ⟨m, hm, -⟩ := Option.map_eq_some_iff.1 hstored
  refine ⟨h.ids.trans (ids_put hm).symm, fun id => (h.seq? id).trans (seq?_put hm id).symm,
    fun id => ?_⟩
  rw [node?_put]
  split
  · next hid => rw [← hid, hn, Option.map_some]
  · exact h.node id

/-- The batch that nodes fill holds these alone, each under its id. -/
theorem mem_extend {b : Batch} {ns : List Node} {e : NodeId × Option Node}
    (he : e ∈ b.extend ns) : e ∈ b ∨ ∃ n ∈ ns, e = (n.id, some n) := by
  induction ns generalizing b with
  | nil => exact .inl he
  | cons n ns ih =>
    rcases ih he with he | ⟨m, hm, he⟩
    · rcases Dict.eq_or_mem_of_mem_insert he with he | he
      · exact .inr ⟨n, List.mem_cons_self, he⟩
      · exact .inl he
    · exact .inr ⟨m, List.mem_cons_of_mem _ hm, he⟩

/-- A batch gives keys one after another. -/
theorem Rekeyed.commit (h : s.Rekeyed t) {b : Batch}
    (hb : ∀ e ∈ b, ∃ n, e = (n.id, some n) ∧
      (s.node? n.id).map Node.keyless = some n.keyless) : s.Rekeyed (t.commit b) := by
  unfold Store.commit
  induction b generalizing t with
  | nil => exact h
  | cons e b ih =>
    obtain ⟨⟨n, he, hn⟩, hrest⟩ := List.forall_mem_cons.1 hb
    subst he
    exact ih (h.put hn) hrest

theorem Rekeys.keyless_node? {n : Node} (h : t.Rekeys n) :
    (t.node? n.id).map Node.keyless = some n.keyless := by
  obtain ⟨m, key, hm, hitem, rfl⟩ := h
  rw [Node.keyless_withOrder hitem]
  exact congrArg (Option.map Node.keyless) hm

/-- However many batches give keys, nothing but these keys is another. -/
theorem rekeyed_of_reorders (h : s.Reorders t) : s.Rekeyed t := by
  induction h with
  | refl => exact ⟨rfl, fun _ => rfl, fun _ => rfl⟩
  | @batch t ns _ rekeys ih =>
    refine ih.commit fun e he => ?_
    rcases mem_extend he with he | ⟨n, hn, rfl⟩
    · cases he
    · exact ⟨n, rfl, (ih.node n.id).trans (rekeys n hn).keyless_node?⟩

theorem Reorders.consistent (h : s.Reorders t) (hs : s.Consistent) : t.Consistent := by
  induction h with
  | refl => exact hs
  | batch _ _ ih => exact ih.commit _

end Store

end DesignTokens
