/-
The ancestors of a node are what parents lead to from it, whatever the parents
are: they may lead to a root, to an id that is not stored, or in a circle. The
walk takes no more steps than there are nodes, and that is enough
(`ancestors_exact`): where parents lead further, two of the steps so far have come
to one node, and from there on the walk repeats itself.

`ancestor?` is the walk without a bound, one node at a time. Steps add up
(`ancestor?_add`), so that a node that comes twice moves every later one nearer.
-/
import Mathlib.Data.List.Nodup
import Mathlib.Logic.Relation
import DesignTokens.Proofs.Store.UpTo

namespace DesignTokens.Store

open Relation

/-- A stored node has a stored parent. -/
def Link (s : Store) (id p : NodeId) : Prop :=
  ∃ n, s.node? id = some n ∧ n.parent = some p ∧ s.contains p

/-- Parents do not lead in a circle, from a node on. -/
def AcyclicFrom (s : Store) (id : NodeId) : Prop :=
  ∀ a, ReflTransGen s.Link id a → ¬ TransGen s.Link a a

/-- The node that parents lead to: the parent, the parent of that, and so on. -/
def ancestor? (s : Store) (id : NodeId) : Nat → Option Node
  | 0 => s.parent? id
  | k + 1 => (s.ancestor? id k).bind fun n => s.parent? n.id

variable {s : Store} {id p : NodeId} {a b : Node} {i j k : Nat}

/-! ## One parent after the other -/

theorem parent?_of_node? {n : Node} (hn : s.node? id = some n) :
    s.parent? id = n.parent.bind s.node? := by
  rw [parent?, hn]
  rfl

theorem ancestor?_succ (ha : s.ancestor? id k = some a) :
    s.ancestor? id (k + 1) = s.parent? a.id := by
  rw [ancestor?, ha, Option.bind_some]

theorem ancestor?_add (ha : s.ancestor? id i = some a) (k : Nat) :
    s.ancestor? id (i + 1 + k) = s.ancestor? a.id k := by
  induction k with
  | zero => exact ancestor?_succ ha
  | succ k ih =>
    show (s.ancestor? id (i + 1 + k)).bind _ = (s.ancestor? a.id k).bind _
    rw [ih]

theorem exists_ancestor?_of_le (h : s.ancestor? id k = some a) (hik : i ≤ k) :
    ∃ b, s.ancestor? id i = some b := by
  induction k generalizing a with
  | zero =>
    obtain rfl := Nat.le_zero.1 hik
    exact ⟨a, h⟩
  | succ k ih =>
    rcases Nat.le_succ_iff.1 hik with hik | rfl
    · obtain ⟨b, hb, -⟩ := Option.bind_eq_some_iff.1 h
      exact ih hb hik
    · exact ⟨a, h⟩

/-- Where no parent leads, the walk does not start. -/
theorem ancestor?_of_parent?_eq_none (h : s.parent? id = none) (k : Nat) :
    s.ancestor? id k = none := by
  induction k with
  | zero => exact h
  | succ k ih => rw [ancestor?, ih, Option.bind_none]

/-- From a node that comes again, everything comes again; so a late node has come before. -/
theorem ancestor?_sub (hi : s.ancestor? id i = some b) (hj : s.ancestor? id j = some b)
    (hij : i < j) (hjk : j ≤ k) : s.ancestor? id (k - (j - i)) = s.ancestor? id k := by
  rcases Nat.eq_or_lt_of_le hjk with rfl | hlt
  · rw [show j - (j - i) = i by omega, hi, hj]
  · have hi' := ancestor?_add hi (k - j - 1)
    have hj' := ancestor?_add hj (k - j - 1)
    rw [show i + 1 + (k - j - 1) = k - (j - i) by omega] at hi'
    rw [show j + 1 + (k - j - 1) = k by omega] at hj'
    rw [hi', hj']

section Consistent

variable (hc : s.Consistent)

include hc

theorem stored_of_parent? (h : s.parent? id = some a) : s.node? a.id = some a := by
  simp only [parent?, Option.bind_eq_bind, Option.bind_eq_some_iff] at h
  obtain ⟨n, -, p, -, ha⟩ := h
  rw [hc.id_of_node? ha, ha]

theorem stored_of_ancestor? (h : s.ancestor? id k = some a) : s.node? a.id = some a := by
  cases k with
  | zero => exact stored_of_parent? hc h
  | succ k =>
    obtain ⟨n, -, hp⟩ := Option.bind_eq_some_iff.1 h
    exact stored_of_parent? hc hp

theorem link_iff : s.Link id p ↔ ∃ a, s.parent? id = some a ∧ a.id = p := by
  simp only [Link, parent?, Option.bind_eq_bind, Option.bind_eq_some_iff, contains,
    Option.isSome_iff_exists]
  constructor
  · rintro ⟨n, hn, hp, a, ha⟩
    exact ⟨a, ⟨n, hn, p, hp, ha⟩, hc.id_of_node? ha⟩
  · rintro ⟨a, ⟨n, hn, q, hq, ha⟩, rfl⟩
    obtain rfl := hc.id_of_node? ha
    exact ⟨n, hn, hq, a, ha⟩

/-- What parents lead to, in one step or more, is reached after some number of steps. -/
theorem transGen_link_iff : TransGen s.Link id p ↔ ∃ k a, s.ancestor? id k = some a ∧ a.id = p := by
  constructor
  · intro h
    induction h with
    | single h =>
      obtain ⟨a, ha, hp⟩ := (link_iff hc).1 h
      exact ⟨0, a, ha, hp⟩
    | tail _ h ih =>
      obtain ⟨k, a, ha, rfl⟩ := ih
      obtain ⟨b, hb, hp⟩ := (link_iff hc).1 h
      exact ⟨k + 1, b, by rw [ancestor?_succ ha, hb], hp⟩
  · rintro ⟨k, a, ha, rfl⟩
    induction k generalizing a with
    | zero => exact .single ((link_iff hc).2 ⟨a, ha, rfl⟩)
    | succ k ih =>
      obtain ⟨b, hb, hp⟩ := Option.bind_eq_some_iff.1 ha
      exact (ih b hb).tail ((link_iff hc).2 ⟨a, hp, rfl⟩)

/-! ## As many steps as there are nodes -/

/-- The walk that is cut off gives the first nodes of the one that is not. -/
theorem getElem?_chainUp {n : Node} (hn : s.node? id = some n) (steps : Nat) :
    (s.chainUp steps n.parent)[k]? = if k < steps then s.ancestor? id k else none := by
  induction steps generalizing id n k with
  | zero => simp [chainUp]
  | succ steps ih =>
    have hparent := parent?_of_node? hn
    cases hp : n.parent.bind s.node? with
    | none =>
      have hnil : s.chainUp (steps + 1) n.parent = [] := by
        cases hq : n.parent with
        | none => rfl
        | some q =>
          rw [hq, Option.bind_some] at hp
          rw [chainUp, hp]
      rw [hnil, ancestor?_of_parent?_eq_none (hparent.trans hp)]
      simp
    | some m =>
      obtain ⟨q, hq, hm⟩ := Option.bind_eq_some_iff.1 hp
      obtain rfl := hc.id_of_node? hm
      rw [hq, chainUp, hm]
      cases k with
      | zero => simp [ancestor?, hparent, hp]
      | succ k =>
        have hnext := ancestor?_add (show s.ancestor? id 0 = some m from hparent.trans hp) k
        rw [show 0 + 1 + k = k + 1 by omega] at hnext
        rw [List.getElem?_cons_succ, ih hm, hnext]
        simp only [Nat.succ_lt_succ_iff]

theorem getElem?_ancestors (id : NodeId) (k : Nat) :
    (s.ancestors id)[k]? = if k < s.size then s.ancestor? id k else none := by
  rw [ancestors]
  cases hn : s.node? id with
  | some n => exact getElem?_chainUp hc hn s.size
  | none =>
    have hnone : s.parent? id = none := by rw [parent?, hn]; rfl
    rw [ancestor?_of_parent?_eq_none hnone]
    simp

/-- More steps than there are nodes come to some node twice. -/
theorem exists_repeated (h : s.ancestor? id k = some a) (hk : s.size ≤ k) :
    ∃ i j b, i < j ∧ j ≤ k ∧ s.ancestor? id i = some b ∧ s.ancestor? id j = some b := by
  by_contra hno
  have hwalk : ∀ i ≤ k, s.ancestor? id i = some ((s.ancestor? id i).getD a) := by
    intro i hi
    obtain ⟨b, hb⟩ := exists_ancestor?_of_le h hi
    rw [hb, Option.getD_some]
  have hnodup : ((List.range (k + 1)).map fun i => (s.ancestor? id i).getD a).Nodup := by
    refine List.pairwise_map.2 (List.pairwise_lt_range.imp_of_mem fun {i j} hi hj hij he => ?_)
    have hik := Nat.le_of_lt_succ (List.mem_range.1 hi)
    have hjk := Nat.le_of_lt_succ (List.mem_range.1 hj)
    exact hno ⟨i, j, _, hij, hjk, hwalk i hik, by rw [he]; exact hwalk j hjk⟩
  have hle := length_le_size (s := s) (fun n hn => ?_) hnodup
  · rw [List.length_map, List.length_range] at hle
    omega
  · obtain ⟨i, hi, rfl⟩ := List.mem_map.1 hn
    exact stored_of_ancestor? hc (hwalk i (Nat.le_of_lt_succ (List.mem_range.1 hi)))

/-- What is reached at all is reached in as many steps as there are nodes. -/
theorem exists_lt_size (h : s.ancestor? id k = some a) :
    ∃ i < s.size, s.ancestor? id i = some a := by
  induction k using Nat.strongRecOn with
  | ind k ih =>
    by_cases hk : k < s.size
    · exact ⟨k, hk, h⟩
    · obtain ⟨i, j, b, hij, hjk, hi, hj⟩ := exists_repeated hc h (by omega)
      exact ih (k - (j - i)) (by omega) (by rw [ancestor?_sub hi hj hij hjk, h])

theorem mem_ancestors_iff : a ∈ s.ancestors id ↔ ∃ k, s.ancestor? id k = some a := by
  rw [List.mem_iff_getElem?]
  simp only [getElem?_ancestors hc]
  constructor
  · rintro ⟨k, hk⟩
    exact ⟨k, (Option.ite_none_right_eq_some.1 hk).2⟩
  · rintro ⟨k, hk⟩
    obtain ⟨i, hi, ha⟩ := exists_lt_size hc hk
    exact ⟨i, by rw [if_pos hi, ha]⟩

theorem length_ancestors_le (id : NodeId) : (s.ancestors id).length ≤ s.size := by
  rw [← List.getElem?_eq_none_iff, getElem?_ancestors hc, if_neg (Nat.lt_irrefl _)]

/-! ## Ways without a circle -/

namespace AcyclicFrom

theorem ne (h : s.AcyclicFrom id) (hij : i < j) (hi : s.ancestor? id i = some b) :
    s.ancestor? id j ≠ some b := by
  intro hj
  have hback := ancestor?_add hi (j - i - 1)
  rw [show i + 1 + (j - i - 1) = j by omega, hj] at hback
  have hcircle : TransGen s.Link b.id b.id := (transGen_link_iff hc).2 ⟨_, b, hback.symm, rfl⟩
  exact h b.id ((transGen_link_iff hc).2 ⟨i, b, hi, rfl⟩).to_reflTransGen hcircle

/-- The walk is at its end before its steps are used up. -/
theorem ancestor?_eq_none (h : s.AcyclicFrom id) (hk : s.size ≤ k) : s.ancestor? id k = none := by
  refine Option.eq_none_iff_forall_ne_some.2 fun a ha => ?_
  obtain ⟨i, j, b, hij, -, hi, hj⟩ := exists_repeated hc ha hk
  exact h.ne hc hij hi hj

theorem getElem?_ancestors (h : s.AcyclicFrom id) (k : Nat) :
    (s.ancestors id)[k]? = s.ancestor? id k := by
  rw [Store.getElem?_ancestors hc]
  split
  · rfl
  · next hk => exact (h.ancestor?_eq_none hc (Nat.le_of_not_lt hk)).symm

theorem nodup_ancestors (h : s.AcyclicFrom id) : (s.ancestors id).Nodup := by
  rw [List.nodup_iff_getElem?_ne_getElem?]
  intro i j hij hj he
  rw [h.getElem?_ancestors hc, h.getElem?_ancestors hc] at he
  obtain ⟨b, hb⟩ : ∃ b, s.ancestor? id j = some b := by
    rw [← h.getElem?_ancestors hc]
    exact ⟨_, List.getElem?_eq_getElem hj⟩
  exact h.ne hc hij (he.trans hb) hb

end AcyclicFrom

/-- Parents lead in no circle just if they lead to an end. -/
theorem acyclicFrom_iff : s.AcyclicFrom id ↔ ∃ k, s.ancestor? id k = none := by
  refine ⟨fun h => ⟨s.size, h.ancestor?_eq_none hc (Nat.le_refl _)⟩, ?_⟩
  rintro ⟨k, hk⟩ c hreach hcircle
  have hnext : ∀ {x}, TransGen s.Link x c → ∃ a, s.parent? x = some a ∧ TransGen s.Link a.id c := by
    intro x hx
    obtain ⟨y, hxy, hyc⟩ := TransGen.head'_iff.1 hx
    obtain ⟨a, ha, rfl⟩ := (link_iff hc).1 hxy
    exact ⟨a, ha, .trans_right hyc hcircle⟩
  -- Before the circle and on it, parents lead to its node once more.
  have hon : ∀ k, ∃ a, s.ancestor? id k = some a ∧ TransGen s.Link a.id c := by
    intro k
    induction k with
    | zero => exact hnext (.trans_right hreach hcircle)
    | succ k ih =>
      obtain ⟨a, ha, hac⟩ := ih
      rw [ancestor?_succ ha]
      exact hnext hac
  obtain ⟨a, ha, -⟩ := hon k
  cases hk.symm.trans ha

end Consistent

/--
**Ancestors are what parents lead to.** In every store that batches lead to, a
node is an ancestor just if one or more parent links lead to it through stored
nodes, even where they lead in a circle; there are no more ancestors than nodes;
and where parents do not lead in a circle, the ancestors are all there is on the
way up, the nearest first, and each of them once.
-/
theorem ancestors_exact {s : Store} (h : s.Reachable) (id : NodeId) :
    (∀ a, a ∈ s.ancestors id ↔ s.node? a.id = some a ∧ TransGen s.Link id a.id) ∧
    (s.ancestors id).length ≤ s.size ∧
    (s.AcyclicFrom id →
      (∀ k, (s.ancestors id)[k]? = s.ancestor? id k) ∧ (s.ancestors id).Nodup) := by
  have hc := h.consistent
  refine ⟨fun a => ?_, length_ancestors_le hc id,
    fun hac => ⟨hac.getElem?_ancestors hc, hac.nodup_ancestors hc⟩⟩
  rw [mem_ancestors_iff hc, transGen_link_iff hc]
  constructor
  · rintro ⟨k, hk⟩
    exact ⟨stored_of_ancestor? hc hk, k, a, hk, rfl⟩
  · rintro ⟨ha, k, b, hk, he⟩
    obtain rfl := eq_of_stored (stored_of_ancestor? hc hk) ha he
    exact ⟨k, hk⟩

/-- A group below itself is its own ancestor, as often as there are nodes; a token of the other
group has that group for its whole chain. -/
theorem ancestors_exact_afterMove :
    afterMove.Reachable ∧ afterMove.AcyclicFrom ⟨"x"⟩ ∧
    (∀ k, (afterMove.ancestors ⟨"x"⟩)[k]? = afterMove.ancestor? ⟨"x"⟩ k) ∧
    (afterMove.ancestors ⟨"x"⟩).map (fun n => n.id.text) = ["q"] ∧
    (∃ a ∈ afterMove.ancestors ⟨"p"⟩, a.id = ⟨"p"⟩ ∧ TransGen afterMove.Link ⟨"p"⟩ a.id) ∧
    (afterMove.ancestors ⟨"p"⟩).map (fun n => n.id.text) = ["p", "p", "p", "p"] := by
  have hr := reachable_afterMove
  have hacyclic : afterMove.AcyclicFrom ⟨"x"⟩ :=
    (acyclicFrom_iff hr.consistent).2 ⟨1, by decide⟩
  have hself : ∃ a ∈ afterMove.ancestors ⟨"p"⟩, a.id = ⟨"p"⟩ := by decide
  obtain ⟨a, ha, hid⟩ := hself
  refine ⟨hr, hacyclic, ((ancestors_exact hr _).2.2 hacyclic).1, by decide, ⟨a, ha, hid, ?_⟩,
    by decide⟩
  exact (((ancestors_exact hr ⟨"p"⟩).1 a).1 ha).2

end DesignTokens.Store
