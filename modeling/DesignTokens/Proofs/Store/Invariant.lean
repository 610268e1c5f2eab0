/-
What every change to a store keeps: ids and sequence numbers are those of the
entries, in step with one another, and the index lists each stored node once,
under its parent and in sibling order, and nothing else.

The index is read through `listed`, and the whole of its part of the invariant
is one equivalence for its members (`mem_listed`) besides the order and the
absence of empty lists. Removing a node and adding it anew are the two halves
of a replacement, so `put` is proved from the two.
-/
import DesignTokens.Proofs.Dict
import DesignTokens.Proofs.Store.Siblings
import DesignTokens.Store.Batch

namespace DesignTokens.Store

/-- Entries and index of a store agree. -/
structure Consistent (s : Store) : Prop where
  nodup_ids : s.ids.Nodup
  /-- Every node is stored under its own id. -/
  own_id : ∀ id c, (id, c) ∈ s.entries → c.node.id = id
  /-- Sequence numbers ascend along the entries. -/
  ascending : (s.entries.map fun e => e.2.seq).Pairwise (· < ·)
  seq_lt : ∀ id c, (id, c) ∈ s.entries → c.seq < s.nextSeq
  nodup_parents : (Dict.keys s.index).Nodup
  /-- The index lists the stored nodes with a parent, and no others. -/
  mem_listed : ∀ p c, c ∈ listed s.index p ↔ (c.node.id, c) ∈ s.entries ∧ c.node.parent = p
  sorted : ∀ p, (listed s.index p).Pairwise Stored.Before
  /-- A parent without children has no list. -/
  nonempty : ∀ p l, (p, l) ∈ s.index → l ≠ []

theorem Consistent.empty : empty.Consistent where
  nodup_ids := .nil
  own_id := by simp [Store.empty]
  ascending := .nil
  seq_lt := by simp [Store.empty]
  nodup_parents := .nil
  mem_listed := by simp [Store.empty, listed]
  sorted := by simp [Store.empty, listed]
  nonempty := by simp [Store.empty]

/-! ## The index alone -/

theorem nodup_keys_enlist {index : List (Option NodeId × List Stored)}
    (h : (Dict.keys index).Nodup) (c : Stored) : (Dict.keys (enlist index c)).Nodup :=
  Dict.nodup_keys_insert h _ _

theorem nodup_keys_unlist {index : List (Option NodeId × List Stored)}
    (h : (Dict.keys index).Nodup) (c : Stored) : (Dict.keys (unlist index c)).Nodup := by
  unfold unlist
  split
  · exact h
  · split
    · exact Dict.nodup_keys_erase h _
    · exact Dict.nodup_keys_insert h _ _

theorem nonempty_enlist {index : List (Option NodeId × List Stored)}
    (hn : (Dict.keys index).Nodup) (h : ∀ p l, (p, l) ∈ index → l ≠ []) (c : Stored) :
    ∀ p l, (p, l) ∈ enlist index c → l ≠ [] := by
  intro p l hl
  rcases (Dict.mem_insert hn).1 hl with he | ⟨-, hl⟩
  · cases he
    exact insertSorted_ne_nil _ _
  · exact h p l hl

theorem nonempty_unlist {index : List (Option NodeId × List Stored)}
    (hn : (Dict.keys index).Nodup) (h : ∀ p l, (p, l) ∈ index → l ≠ []) (c : Stored) :
    ∀ p l, (p, l) ∈ unlist index c → l ≠ [] := by
  intro p l hl
  unfold unlist at hl
  split at hl
  · exact h p l hl
  · split at hl
    · exact h p l (Dict.mem_erase.1 hl).2
    · next rest =>
      rcases (Dict.mem_insert hn).1 hl with he | ⟨-, hl⟩
      · cases he
        assumption
      · exact h p l hl

/-! ## Removing and adding -/

/-- An entry is told by its id. -/
theorem Consistent.eq_of_id_eq {s : Store} (h : s.Consistent) {c d : Stored}
    (hc : (c.node.id, c) ∈ s.entries) (hd : (d.node.id, d) ∈ s.entries)
    (he : c.node.id = d.node.id) : c = d := by
  have hc' := Dict.get?_of_mem h.nodup_ids hc
  have hd' := Dict.get?_of_mem h.nodup_ids hd
  rw [he, hd'] at hc'
  exact (Option.some.inj hc').symm

/-- An entry is told by its sequence number as well. -/
theorem Consistent.eq_of_seq_eq {s : Store} (h : s.Consistent) {e f : NodeId × Stored}
    (he : e ∈ s.entries) (hf : f ∈ s.entries) (hs : e.2.seq = f.2.seq) : e = f := by
  have hlt : s.entries.Pairwise fun a b => a.2.seq < b.2.seq := List.pairwise_map.1 h.ascending
  have hinj := List.Pairwise.forall_of_forall_of_flip (R := fun a b => a.2.seq = b.2.seq → a = b)
    (fun _ _ _ => rfl) (hlt.imp fun hab he => absurd he (Nat.ne_of_lt hab))
    (hlt.imp fun hab he => absurd he.symm (Nat.ne_of_lt hab))
  exact hinj he hf hs

theorem Consistent.remove {s : Store} (h : s.Consistent) (id : NodeId) :
    (s.remove id).Consistent := by
  unfold Store.remove
  split
  · exact h
  next old hold =>
  have hmem := Dict.mem_of_get? hold
  have hid : old.node.id = id := h.own_id _ _ hmem
  subst hid
  have hsub : (Dict.erase s.entries old.node.id).Sublist s.entries := List.filter_sublist
  refine ⟨Dict.nodup_keys_erase h.nodup_ids _, fun id c hc => h.own_id id c (hsub.subset hc),
    h.ascending.sublist (hsub.map _), fun id c hc => h.seq_lt id c (hsub.subset hc),
    nodup_keys_unlist h.nodup_parents _, fun p c => ?_, fun p => ?_,
    nonempty_unlist h.nodup_parents h.nonempty _⟩
  · rw [listed_unlist, Dict.mem_erase]
    split
    · next hp =>
      simp only [List.mem_filter, h.mem_listed, decide_eq_true_eq]
      exact ⟨fun ⟨⟨hc, hp⟩, hne⟩ => ⟨⟨hne, hc⟩, hp⟩, fun ⟨⟨hne, hc⟩, hp⟩ => ⟨⟨hc, hp⟩, hne⟩⟩
    · next hp =>
      rw [h.mem_listed]
      refine ⟨fun ⟨hc, hcp⟩ => ⟨⟨fun he => ?_, hc⟩, hcp⟩, fun ⟨⟨_, hc⟩, hcp⟩ => ⟨hc, hcp⟩⟩
      have : c = old := h.eq_of_id_eq hc hmem he
      exact hp (this ▸ hcp)
  · rw [listed_unlist]
    split
    · exact (h.sorted p).sublist List.filter_sublist
    · exact h.sorted p

/-- Adding a node under a new id, with a sequence number that no entry has. -/
theorem Consistent.add {s : Store} (h : s.Consistent) {c : Stored} (hid : c.node.id ∉ s.ids)
    (hseq : ∀ id d, (id, d) ∈ s.entries → d.seq ≠ c.seq) :
    (∀ p d, d ∈ listed (enlist s.index c) p ↔
      (d = c ∨ (d.node.id, d) ∈ s.entries) ∧ d.node.parent = p) ∧
    ∀ p, (listed (enlist s.index c) p).Pairwise Stored.Before := by
  refine ⟨fun p d => ?_, fun p => ?_⟩
  · rw [listed_enlist]
    split
    · next hp =>
      rw [mem_insertSorted, h.mem_listed]
      refine ⟨?_, ?_⟩
      · rintro (rfl | ⟨hd, hdp⟩)
        · exact ⟨.inl rfl, hp⟩
        · exact ⟨.inr hd, hdp⟩
      · rintro ⟨rfl | hd, hdp⟩
        · exact .inl rfl
        · exact .inr ⟨hd, hdp⟩
    · next hp =>
      rw [h.mem_listed]
      refine ⟨fun ⟨hd, hdp⟩ => ⟨.inr hd, hdp⟩, ?_⟩
      rintro ⟨rfl | hd, hdp⟩
      · exact absurd hdp hp
      · exact ⟨hd, hdp⟩
  · rw [listed_enlist]
    split
    · exact sorted_insertSorted (h.sorted p) fun d hd => hseq _ d ((h.mem_listed p d).1 hd).1
    · exact h.sorted p

theorem put_new {s : Store} {n : Node} (h : n.id ∉ s.ids) :
    s.put n = ⟨s.entries ++ [(n.id, ⟨n, s.nextSeq⟩)], enlist s.index ⟨n, s.nextSeq⟩,
      s.nextSeq + 1⟩ := by
  have hg : Dict.get? s.entries n.id = none := Dict.get?_eq_none_iff.2 h
  simp only [put, hg, Dict.insert_of_notMem h]

theorem put_present {s : Store} {n : Node} {old : Stored}
    (h : Dict.get? s.entries n.id = some old) :
    s.put n = ⟨Dict.insert s.entries n.id ⟨n, old.seq⟩, enlist (unlist s.index old) ⟨n, old.seq⟩,
      s.nextSeq⟩ := by
  simp only [put, h]

theorem remove_present {s : Store} {id : NodeId} {old : Stored}
    (h : Dict.get? s.entries id = some old) :
    s.remove id = ⟨Dict.erase s.entries id, unlist s.index old, s.nextSeq⟩ := by
  simp only [remove, h]

theorem Consistent.put_new {s : Store} (h : s.Consistent) {n : Node} (hid : n.id ∉ s.ids) :
    (s.put n).Consistent := by
  rw [Store.put_new hid]
  have hent : ∀ id c, (id, c) ∈ s.entries ++ [(n.id, (⟨n, s.nextSeq⟩ : Stored))] →
      (id, c) ∈ s.entries ∨ id = n.id ∧ c = ⟨n, s.nextSeq⟩ := by
    intro id c hc
    simpa only [List.mem_append, List.mem_singleton, Prod.mk.injEq] using hc
  obtain ⟨hmem, hsorted⟩ := h.add (c := ⟨n, s.nextSeq⟩) hid
    fun id d hd => Nat.ne_of_lt (h.seq_lt id d hd)
  refine ⟨?_, fun id c hc => ?_, ?_, fun id c hc => ?_, nodup_keys_enlist h.nodup_parents _,
    fun p c => ?_, hsorted, nonempty_enlist h.nodup_parents h.nonempty _⟩
  · rw [← Dict.insert_of_notMem hid]
    exact Dict.nodup_keys_insert h.nodup_ids _ _
  · rcases hent id c hc with hc | ⟨rfl, rfl⟩
    · exact h.own_id id c hc
    · rfl
  · simp only [List.map_append, List.pairwise_append, List.map_cons, List.map_nil,
      List.mem_singleton, List.mem_map]
    refine ⟨h.ascending, List.pairwise_singleton _ _, ?_⟩
    rintro _ ⟨⟨id, c⟩, hc, rfl⟩ _ rfl
    exact h.seq_lt id c hc
  · rcases hent id c hc with hc | ⟨rfl, rfl⟩
    · exact Nat.lt_succ_of_lt (h.seq_lt id c hc)
    · exact Nat.lt_succ_self _
  · rw [hmem]
    refine and_congr_left fun _ => ⟨?_, fun hc => ?_⟩
    · rintro (rfl | hc)
      · simp
      · exact List.mem_append_left _ hc
    · exact (hent _ _ hc).symm.imp_left And.right

/-- The old node leaves the index as `remove` takes it out; its entry is written over. -/
theorem Consistent.put_present {s : Store} (h : s.Consistent) {n : Node} {old : Stored}
    (hold : Dict.get? s.entries n.id = some old) : (s.put n).Consistent := by
  rw [Store.put_present hold]
  have hmemold := Dict.mem_of_get? hold
  have hr := h.remove n.id
  rw [remove_present hold] at hr
  obtain ⟨hmem, hsorted⟩ := hr.add (c := ⟨n, old.seq⟩)
    (by rw [ids, Dict.keys_erase]; simp)
    (fun id d hd he => by
      obtain ⟨hne, hd⟩ := Dict.mem_erase.1 hd
      exact hne (congrArg Prod.fst (h.eq_of_seq_eq hd hmemold he)))
  refine ⟨Dict.nodup_keys_insert h.nodup_ids _ _, fun id c hc => ?_, ?_, fun id c hc => ?_,
    nodup_keys_enlist hr.nodup_parents _, fun p c => ?_, hsorted,
    nonempty_enlist hr.nodup_parents hr.nonempty _⟩
  · rcases (Dict.mem_insert h.nodup_ids).1 hc with hc | ⟨-, hc⟩
    · cases hc
      rfl
    · exact h.own_id id c hc
  · have hmap : (Dict.insert s.entries n.id ⟨n, old.seq⟩).map (fun e => e.2.seq)
        = s.entries.map fun e => e.2.seq := Dict.map_insert_of_get? hold rfl
    simp only [hmap]
    exact h.ascending
  · rcases (Dict.mem_insert h.nodup_ids).1 hc with hc | ⟨-, hc⟩
    · cases hc
      exact h.seq_lt _ old hmemold
    · exact h.seq_lt id c hc
  · rw [hmem, Dict.mem_insert h.nodup_ids, Dict.mem_erase]
    refine and_congr_left fun _ => or_congr_left ⟨?_, fun hc => (Prod.mk.inj hc).2⟩
    rintro rfl
    rfl

theorem Consistent.put {s : Store} (h : s.Consistent) (n : Node) : (s.put n).Consistent := by
  cases hg : Dict.get? s.entries n.id with
  | none => exact h.put_new (Dict.get?_eq_none_iff.1 hg)
  | some old => exact h.put_present hg

theorem Consistent.apply {s : Store} (h : s.Consistent) (id : NodeId) (change : Option Node) :
    (s.apply id change).Consistent := by
  cases change with
  | none => exact h.remove id
  | some n => exact h.put n

/-- A batch keeps the invariant, whatever it stages. -/
theorem Consistent.commit {s : Store} (h : s.Consistent) (b : Batch) : (s.commit b).Consistent := by
  unfold Store.commit
  induction b generalizing s with
  | nil => exact h
  | cons e b ih => exact ih (h.apply e.1 e.2)

end DesignTokens.Store
