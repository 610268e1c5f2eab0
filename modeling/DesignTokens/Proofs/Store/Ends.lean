/-
The two ends of a list of siblings. A node that is put under a parent leaves
every other list of children as it was, but for the node itself
(`mem_children_put`), so all that is to be settled is its place. A key that was
asked for behind all children lies above the last of them, and with it above
every other one, whatever keys the others have and however they tie; a key that
was asked for before all children lies below them in the same way.
-/
import DesignTokens.Proofs.OrderKey.Ascending
import DesignTokens.Proofs.Store.Replace

namespace DesignTokens.Store

/-- The children of a parent without the node that has an id. -/
def childrenBut (s : Store) (id : NodeId) (p : Option NodeId) : List Node :=
  (s.children p).filter fun c => c.id ≠ id

theorem mem_childrenBut {s : Store} {id : NodeId} {p : Option NodeId} {c : Node} :
    c ∈ s.childrenBut id p ↔ c ∈ s.children p ∧ c.id ≠ id := by
  simp [childrenBut]

theorem seq?_put_of_ne (s : Store) {n : Node} {id : NodeId} (hid : n.id ≠ id) :
    (s.put n).seq? id = s.seq? id := by
  unfold put
  split <;> rw [seq?, seq?, Dict.get?_insert_of_ne _ _ hid]

theorem Precedes.bytesLt_or_eq {s : Store} {a b : Node} (h : s.Precedes a b) :
    Text.BytesLt a.order b.order ∨ a.order = b.order :=
  h.imp_right And.left

namespace Consistent

variable {s : Store} (h : s.Consistent)

include h

/-! ## Keys for the ends -/

/-- A key behind all children is above the key of each. -/
theorem lt_of_keyBehindAll {p : Option NodeId} {k : String} (hk : s.keyBehindAll p = .ok k) :
    ∀ c ∈ s.children p, Text.BytesLt c.order k := by
  intro c hc
  have hbounds := (OrderKey.bounds_of_keyWithin hk).1
  have hsorted := h.pairwise_children p
  cases hlast : (s.children p).getLast? with
  | none =>
    rw [List.getLast?_eq_none_iff.1 hlast] at hc
    cases hc
  | some d =>
    have hd : Text.BytesLt d.order k := hbounds d.order (by rw [hlast]; rfl)
    obtain ⟨before, hbefore⟩ := List.getLast?_eq_some_iff.1 hlast
    rw [hbefore, List.mem_append, List.mem_singleton] at hc
    rw [hbefore, List.pairwise_append] at hsorted
    rcases hc with hc | rfl
    · rcases (hsorted.2.2 c hc d (List.mem_singleton.2 rfl)).bytesLt_or_eq with hlt | he
      · exact OrderKey.bytesLt_trans hlt hd
      · exact he ▸ hd
    · exact hd

/-- A key before all children is below the key of each. -/
theorem lt_of_keyBeforeAll {p : Option NodeId} {k : String} (hk : s.keyBeforeAll p = .ok k) :
    ∀ c ∈ s.children p, Text.BytesLt k c.order := by
  intro c hc
  have hbounds := (OrderKey.bounds_of_keyWithin hk).2
  have hsorted := h.pairwise_children p
  cases hchildren : s.children p with
  | nil =>
    rw [hchildren] at hc
    cases hc
  | cons d behind =>
    have hd : Text.BytesLt k d.order := hbounds d.order (by rw [hchildren]; rfl)
    rw [hchildren, List.mem_cons] at hc
    rw [hchildren, List.pairwise_cons] at hsorted
    rcases hc with rfl | hc
    · exact hd
    · rcases (hsorted.1 c hc).bytesLt_or_eq with hlt | he
      · exact OrderKey.bytesLt_trans hd hlt
      · exact he ▸ hd

/-! ## One node put -/

/-- A node that is put is found under its parent, and every other child where it was. -/
theorem mem_children_put {n c : Node} {p : Option NodeId} :
    c ∈ (s.put n).children p ↔ c ∈ s.childrenBut n.id p ∨ c = n ∧ n.parent = p := by
  rw [(h.put n).mem_children_iff, node?_put, mem_childrenBut, h.mem_children_iff]
  by_cases hid : n.id = c.id
  · rw [if_pos hid, Option.some.injEq]
    constructor
    · rintro ⟨rfl, hp⟩
      exact .inr ⟨rfl, hp⟩
    · rintro (⟨-, hne⟩ | ⟨rfl, hp⟩)
      · exact absurd hid.symm hne
      · exact ⟨rfl, hp⟩
  · rw [if_neg hid]
    constructor
    · exact fun hc => .inl ⟨hc, Ne.symm hid⟩
    · rintro (⟨hc, -⟩ | ⟨rfl, -⟩)
      · exact hc
      · exact absurd rfl hid

/-- The other children keep their keys and sequence numbers, and so their order. -/
theorem pairwise_childrenBut (n : Node) (p : Option NodeId) :
    (s.childrenBut n.id p).Pairwise (s.put n).Precedes := by
  refine ((h.pairwise_children p).filter _).imp_of_mem fun {a b} ha hb hab => ?_
  have hane := (mem_childrenBut.1 ha).2
  have hbne := (mem_childrenBut.1 hb).2
  rw [Precedes, seq?_put_of_ne s hane.symm, seq?_put_of_ne s hbne.symm]
  exact hab

theorem children_put_eq {n : Node} {p : Option NodeId} {l : List Node}
    (hmem : ∀ c, c ∈ l ↔ c ∈ s.childrenBut n.id p ∨ c = n ∧ n.parent = p)
    (hl : l.Pairwise (s.put n).Precedes) : (s.put n).children p = l :=
  (h.put n).children_eq_of_pairwise hl fun c => by
    rw [hmem, ← h.mem_children_put, (h.put n).mem_children_iff]

theorem children_put_of_ne {n : Node} {p : Option NodeId} (hp : p ≠ n.parent) :
    (s.put n).children p = s.childrenBut n.id p := by
  refine h.children_put_eq (fun c => ?_) (h.pairwise_childrenBut n p)
  rw [or_iff_left fun hc => hp hc.2.symm]

theorem children_put_behind {n : Node} (hk : s.keyBehindAll n.parent = .ok n.order) :
    (s.put n).children n.parent = s.childrenBut n.id n.parent ++ [n] := by
  refine h.children_put_eq (fun c => ?_) (List.pairwise_append.2
    ⟨h.pairwise_childrenBut n _, List.pairwise_singleton _ _, fun c hc d hd => ?_⟩)
  · simp
  · rw [List.mem_singleton] at hd
    exact .inl (hd ▸ h.lt_of_keyBehindAll hk c (mem_childrenBut.1 hc).1)

theorem children_put_before {n : Node} (hk : s.keyBeforeAll n.parent = .ok n.order) :
    (s.put n).children n.parent = n :: s.childrenBut n.id n.parent := by
  refine h.children_put_eq (fun c => ?_)
    (List.pairwise_cons.2 ⟨fun c hc => ?_, h.pairwise_childrenBut n _⟩)
  · simp [or_comm]
  · exact .inl (h.lt_of_keyBeforeAll hk c (mem_childrenBut.1 hc).1)

end Consistent

/--
**A node at either end.** In every store that batches lead to, let a node be
set, new or in place of the one with its id. If its key is the one that is given
behind all children of its parent, it becomes the last of them; if it is the one
that is given before them, the first. The other children of this parent keep
their order, and the children of every other parent stay as they were, without
the node if it was one of them.
-/
theorem children_set_at_end {s : Store} (h : s.Reachable) (n : Node) :
    let t := s.commit (Batch.empty.set n)
    (s.keyBehindAll n.parent = .ok n.order →
      t.children n.parent = s.childrenBut n.id n.parent ++ [n]) ∧
    (s.keyBeforeAll n.parent = .ok n.order →
      t.children n.parent = n :: s.childrenBut n.id n.parent) ∧
    ∀ p, p ≠ n.parent → t.children p = s.childrenBut n.id p :=
  have hc := h.consistent
  ⟨hc.children_put_behind, hc.children_put_before, fun _ => hc.children_put_of_ne⟩

/-- A group that is named after its id. -/
def groupAt (id : String) (parent : Option NodeId) (order : String) : Node :=
  ⟨⟨id⟩, parent, order, .group ⟨id, .none, none⟩⟩

/-- Two groups, and three more below the first: one at a text that is no key, two at one key. -/
def crowded : Store :=
  let p : Option NodeId := some ⟨"p"⟩
  Store.empty.commit ([Write.extend [groupAt "p" none "a0", groupAt "q" none "a1",
    groupAt "x" p "!", groupAt "y" p "a5", groupAt "z" p "a5"]].foldl Batch.write .empty)

/-- The first child moves behind the tied ones; then one of these moves before all roots. -/
theorem children_set_at_end_crowded :
    let p : Option NodeId := some ⟨"p"⟩
    let x := groupAt "x" p "a6"
    let y := groupAt "y" none "Zz"
    (crowded.Reachable ∧ crowded.keyBehindAll p = .ok "a6" ∧ crowded.keyBeforeAll none = .ok "Zz") ∧
    ((crowded.commit (Batch.empty.set x)).children p).map (·.id.text) = ["y", "z", "x"] ∧
    ((crowded.commit (Batch.empty.set y)).children none).map (·.id.text) = ["y", "p", "q"] ∧
    ((crowded.commit (Batch.empty.set y)).children p).map (·.id.text) = ["x", "z"] := by
  intro p x y
  have hr : crowded.Reachable := .commit _ .empty
  have hlast : crowded.keyBehindAll p = .ok "a6" := by decide
  have hfirst : crowded.keyBeforeAll none = .ok "Zz" := by decide
  have hbehind : (crowded.commit (Batch.empty.set x)).children p =
      crowded.childrenBut ⟨"x"⟩ p ++ [x] := (children_set_at_end hr x).1 hlast
  have hbefore : (crowded.commit (Batch.empty.set y)).children none =
      y :: crowded.childrenBut ⟨"y"⟩ none := (children_set_at_end hr y).2.1 hfirst
  have hleft : (crowded.commit (Batch.empty.set y)).children p = crowded.childrenBut ⟨"y"⟩ p :=
    (children_set_at_end hr y).2.2 p (by decide)
  refine ⟨⟨hr, hlast, hfirst⟩, ?_, ?_, ?_⟩
  · rw [hbehind]
    decide
  · rw [hbefore]
    decide
  · rw [hleft]
    decide

end DesignTokens.Store
