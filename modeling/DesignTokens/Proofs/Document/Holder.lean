/-
What holds the trees of a document: the root level in a tree document, a set or
a context of a modifier in a resolver document (`Holder`). Every entry hangs on
one of these by groups (`Forested.hangsOn`, `Forested.exists_holder`), which are
then its ancestors, and the holder's own nodes above them
(`Holder.ancestors_eq`).
-/
import DesignTokens.Proofs.Document.Forested
import DesignTokens.Proofs.Resolution.NamePath

namespace DesignTokens

namespace Content

theorem isEntry_of_isItem {c : Content} (h : c.isItem) : c.isEntry = false := by
  cases c with
  | token | group => cases h
  | _ => rfl

/-- An entry may stand below a group, a set or a context. -/
theorem of_mayHold_entry {c c' : Content} (h : c.mayHold c') (hentry : c'.isEntry) :
    (∃ g, c = .group g) ∨ (∃ tokens, c = .set tokens) ∨ ∃ name, c = .context name := by
  cases c with
  | group g => exact .inl ⟨g, rfl⟩
  | set tokens => exact .inr (.inl ⟨tokens, rfl⟩)
  | context name => exact .inr (.inr ⟨name, rfl⟩)
  | modifier =>
    cases c' with
    | context => cases hentry
    | _ => cases h
  | _ => cases h

theorem of_mayHold_context {c : Content} {name : String} (h : c.mayHold (.context name)) :
    ∃ choice, c = .modifier choice := by
  cases c with
  | modifier choice => exact ⟨choice, rfl⟩
  | _ => cases h

/-- Nothing holds an item. -/
theorem not_mayHold_item {c c' : Content} (h : c'.isItem) : ¬ c.mayHold c' := by
  intro hheld
  cases c with
  | modifier =>
    cases c' with
    | context => cases h
    | _ => cases hheld
  | token | resolver => cases hheld
  | _ => exact absurd hheld (by simp [mayHold, isEntry_of_isItem h])

end Content

theorem Node.isEntry_iff {n : Node} : n.content.isEntry ↔ n.isToken ∨ n.isGroup := by
  rw [Node.isToken_iff, Node.isGroup_iff]
  cases n.content <;> simp [Content.isEntry]

namespace Forested

variable {top : Content → Bool} {ns : List Node} (h : Forested top ns)

include h

theorem mem_nodes_iff {n : Node} : n ∈ (Store.ofNodes ns).nodes ↔ n ∈ ns := by
  rw [Store.nodes_ofNodes h.distinct]

theorem stored {n : Node} (hn : n ∈ ns) : (Store.ofNodes ns).node? n.id = some n :=
  (Store.reachable_ofNodes ns).consistent.node?_eq_some_iff.2 ⟨h.mem_nodes_iff.2 hn, rfl⟩

theorem distinctNames : (Store.ofNodes ns).DistinctNames := by
  have hnodup : (ns.map fun n => (n.parent, n.name)).Nodup := List.pairwise_map.2
    (h.siblings.imp fun hab he => (hab (congrArg Prod.fst he)).1 (congrArg Prod.snd he))
  intro a ha b hb hparent hname
  rw [h.mem_nodes_iff] at ha hb
  exact List.inj_on_of_nodup_map hnodup ha hb (Prod.ext hparent hname)

/-- What holds at the top and passes from a node to what it holds, holds of all: a parent comes
before its children. -/
theorem induction {motive : Node → Prop}
    (root : ∀ n ∈ ns, n.parent = none → top n.content → motive n)
    (step : ∀ m ∈ ns, ∀ n ∈ ns, n.parent = some m.id → m.content.mayHold n.content →
      motive m → motive n) :
    ∀ n ∈ ns, motive n := by
  intro n hn
  induction hk : ns.idxOf n using Nat.strongRecOn generalizing n with
  | ind k ih =>
    rcases h.parents n hn with ⟨hp, hc⟩ | ⟨m, hmn, hp, hc⟩
    · exact root n hn hp hc
    · have hm : m ∈ ns := hmn.subset (List.mem_cons_self ..)
      have hlt : ns.idxOf m < ns.idxOf n := by
        obtain ⟨before, behind, he, hmb, hnb⟩ := List.cons_sublist_iff.1 hmn
        have hdisjoint := (List.nodup_append.1 (he ▸ h.distinct.of_map)).2.2
        rw [he, List.idxOf_append_of_mem hmb, List.idxOf_append_of_notMem fun hn' =>
          hdisjoint n hn' n (List.singleton_sublist.1 hnb) rfl]
        exact Nat.lt_add_right _ (List.idxOf_lt_length_of_mem hmb)
      exact step m hm n hn hp hc (ih _ (hk ▸ hlt) m hm rfl)

/-- Below a group a node hangs on what the group hangs on. -/
theorem hangsOn_step {p : Option NodeId} {m n : Node} (hn : n ∈ ns) (hp : n.parent = some m.id)
    {g : Group} (hg : m.content = .group g) (hm : (Store.ofNodes ns).HangsOn p m) :
    (Store.ofNodes ns).HangsOn p n := by
  obtain ⟨hstored, above, hup⟩ := hm
  exact ⟨h.stored hn, m :: above, hp ▸ .up hstored (Node.isGroup_iff.2 ⟨g, hg⟩) hup⟩

end Forested

namespace Store

/-- What a tree of a document hangs on, with its nodes from the top of the document on. -/
inductive Holder (s : Store) : Option NodeId → List Node → Prop
  | root : Holder s none []
  | set {c : Node} {tokens : TokenSet} (stored : s.node? c.id = some c)
      (content : c.content = .set tokens) (top : c.parent = none) : Holder s (some c.id) [c]
  | context {m c : Node} {choice : Modifier} {name : String} (stored : s.node? m.id = some m)
      (content : m.content = .modifier choice) (top : m.parent = none)
      (stored' : s.node? c.id = some c) (content' : c.content = .context name)
      (below : c.parent = some m.id) : Holder s (some c.id) [m, c]

namespace Holder

variable {s : Store} {top : Option NodeId} {cs : List Node} (h : s.Holder top cs)

include h

theorem outermost : s.Outermost top := by
  cases h with
  | root => exact outermost_none s
  | set stored content =>
    exact outermost_of_stored stored (by simp [Node.isGroup, Node.group?, content])
  | context _ _ _ stored' content' =>
    exact outermost_of_stored stored' (by simp [Node.isGroup, Node.group?, content'])

theorem stored_of_mem {c : Node} (hc : c ∈ cs) : s.node? c.id = some c := by
  cases h with
  | root => cases hc
  | set stored => exact List.mem_singleton.1 hc ▸ stored
  | context stored _ _ stored' =>
    rcases List.mem_cons.1 hc with rfl | hc
    · exact stored
    · exact List.mem_singleton.1 hc ▸ stored'

theorem isGroup_eq_false {c : Node} (hc : c ∈ cs) : c.isGroup = false := by
  cases h with
  | root => cases hc
  | set _ content =>
    rw [List.mem_singleton.1 hc]
    simp [Node.isGroup, Node.group?, content]
  | context _ content _ _ content' =>
    rcases List.mem_cons.1 hc with rfl | hc
    · simp [Node.isGroup, Node.group?, content]
    · rw [List.mem_singleton.1 hc]
      simp [Node.isGroup, Node.group?, content']

theorem nodup : cs.Nodup := by
  cases h with
  | root => exact .nil
  | set => exact List.nodup_singleton _
  | context _ content _ _ content' =>
    refine List.nodup_cons.2 ⟨fun hm => ?_, List.nodup_singleton _⟩
    rw [List.mem_singleton.1 hm, content'] at content
    cases content

theorem chainUp_eq {k : Nat} (hk : cs.length ≤ k) : s.chainUp k top = cs.reverse := by
  have hroot : ∀ k, s.chainUp k none = [] := fun k => by cases k <;> rfl
  cases h with
  | root => exact hroot k
  | set stored _ top =>
    obtain ⟨k, rfl⟩ := Nat.exists_eq_add_of_le' hk
    simp [chainUp, stored, top, hroot]
  | context stored _ top stored' _ below =>
    obtain ⟨k, rfl⟩ := Nat.exists_eq_add_of_le' hk
    simp [chainUp, stored', below, stored, top, hroot]

/-- The ancestors of what hangs on a holder are the groups up to it, and the holder's nodes. -/
theorem ancestors_eq (hc : s.Consistent) {n : Node} (hn : s.node? n.id = some n)
    {above : List Node} (hup : s.UpTo top n.parent above) :
    s.ancestors n.id = above ++ cs.reverse := by
  have hnodup : (above ++ cs.reverse).Nodup := by
    refine List.nodup_append.2 ⟨(hup.nodup hc h.outermost).of_map, List.nodup_reverse.2 h.nodup,
      fun a ha c hcs he => ?_⟩
    have hgroup := hup.isGroup_of_mem ha
    rw [he, h.isGroup_eq_false (List.mem_reverse.1 hcs)] at hgroup
    cases hgroup
  have hle := length_le_size (s := s) (l := above ++ cs.reverse) (fun a ha => by
    rcases List.mem_append.1 ha with ha | ha
    · exact hup.stored_of_mem hc ha
    · exact h.stored_of_mem (List.mem_reverse.1 ha)) hnodup
  rw [List.length_append, List.length_reverse] at hle
  rw [ancestors, hn]
  exact (hup.chainUp (Nat.le_trans (Nat.le_add_right ..) hle)).trans
    (congrArg (above ++ ·) (h.chainUp_eq (Nat.le_sub_of_add_le' hle)))

end Holder

end Store

/-! ## The holders of a document's entries -/

namespace Forested

variable {ns : List Node}

/-- In a tree document every node hangs on the root level. -/
theorem hangsOn (h : Forested Content.isEntry ns) :
    ∀ n ∈ ns, n.content.isEntry ∧ (Store.ofNodes ns).HangsOn none n := by
  refine h.induction (fun n hn hp hc => ⟨hc, h.stored hn, [], hp ▸ .here⟩)
    fun m hm n hn hp hheld ⟨hentry, hangs⟩ => ?_
  cases hc : m.content with
  | group g =>
    rw [hc] at hheld
    exact ⟨hheld, h.hangsOn_step hn hp hc hangs⟩
  | token t =>
    rw [hc] at hheld
    cases hheld
  | _ =>
    rw [hc] at hentry
    cases hentry

variable (h : Forested Content.isItem ns)

include h

/-- Items stand at the top. -/
theorem parent_eq_none {m : Node} (hm : m ∈ ns) (hitem : m.content.isItem) : m.parent = none := by
  rcases h.parents m hm with ⟨hp, -⟩ | ⟨m', -, -, hc⟩
  · exact hp
  · exact absurd hc (Content.not_mayHold_item hitem)

/-- A context is one of a modifier. -/
theorem holder_context {c : Node} {name : String} (hc : c ∈ ns) (hcontent : c.content = .context name) :
    ∃ m, (Store.ofNodes ns).Holder (some c.id) [m, c] := by
  rcases h.parents c hc with ⟨-, hitem⟩ | ⟨m, hmc, hp, hheld⟩
  · rw [hcontent] at hitem
    cases hitem
  · rw [hcontent] at hheld
    obtain ⟨choice, hchoice⟩ := Content.of_mayHold_context hheld
    have hm : m ∈ ns := hmc.subset (List.mem_cons_self ..)
    have htop := h.parent_eq_none hm (by rw [hchoice]; rfl)
    exact ⟨m, .context (h.stored hm) hchoice htop (h.stored hc) hcontent hp⟩

/-- In a resolver document every entry hangs on a set or on a context. -/
theorem exists_holder : ∀ n ∈ ns, n.content.isEntry →
    ∃ p c cs, (Store.ofNodes ns).Holder p (c :: cs) ∧ (Store.ofNodes ns).HangsOn p n := by
  refine h.induction (fun n _ _ hitem hentry => ?_) fun m hm n hn hp hheld ih hentry => ?_
  · rw [Content.isEntry_of_isItem hitem] at hentry
    cases hentry
  · rcases Content.of_mayHold_entry hheld hentry with ⟨g, hg⟩ | ⟨tokens, hset⟩ | ⟨name, hcontext⟩
    · obtain ⟨p, c, cs, holder, hangs⟩ := ih (by rw [hg]; rfl)
      exact ⟨p, c, cs, holder, h.hangsOn_step hn hp hg hangs⟩
    · have htop := h.parent_eq_none hm (by rw [hset]; rfl)
      exact ⟨_, _, _, .set (h.stored hm) hset htop, h.stored hn, [], hp ▸ .here⟩
    · obtain ⟨m', holder⟩ := h.holder_context hm hcontext
      exact ⟨_, _, _, holder, h.stored hn, [], hp ▸ .here⟩

end Forested

end DesignTokens
