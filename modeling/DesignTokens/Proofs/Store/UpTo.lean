/-
The way up from a node by groups. Whatever a parent is, the groups between it
and something further up are told by it (`UpTo`), and if that is no group
itself, they are told apart from it: no group comes twice on the way, and there
is only one way. So these are the groups whose names make up the path of the
node, and a walk down from the top by groups enters each of them.
-/
import Mathlib.Data.List.Perm.Subperm
import DesignTokens.Proofs.Store.OfNodes
import DesignTokens.Resolution.Path
import DesignTokens.Resolution.Visited

namespace DesignTokens

theorem Node.isGroup_iff {n : Node} : n.isGroup ↔ ∃ g, n.content = .group g := by
  obtain ⟨_, _, _, c⟩ := n
  cases c <;> simp [Node.isGroup, Node.group?]

theorem Node.isToken_iff {n : Node} : n.isToken ↔ ∃ t, n.content = .token t := by
  obtain ⟨_, _, _, c⟩ := n
  cases c <;> simp [Node.isToken, Node.token?]

theorem Node.isContext_iff {n : Node} : n.isContext ↔ ∃ name, n.content = .context name := by
  obtain ⟨_, _, _, c⟩ := n
  cases c <;> simp [Node.isContext]

theorem Node.name_of_group {n : Node} {g : Group} (h : n.content = .group g) : n.name = g.name := by
  rw [Node.name, h]
  rfl

namespace Store

/-- The groups from a parent up to another one, the nearest first. -/
inductive UpTo (s : Store) (top : Option NodeId) : Option NodeId → List Node → Prop
  | here : UpTo s top top []
  | up {id : NodeId} {g : Node} {above : List Node} (stored : s.node? id = some g)
      (group : g.isGroup) (rest : UpTo s top g.parent above) : UpTo s top (some id) (g :: above)

/-- There is no group at a parent: it is the root level, or a node of another kind, or missing. -/
def Outermost (s : Store) (top : Option NodeId) : Prop :=
  ∀ id ∈ top, ∀ n, s.node? id = some n → n.isGroup = false

/-- A stored node that hangs on a parent directly, or by groups between them. -/
def HangsOn (s : Store) (top : Option NodeId) (n : Node) : Prop :=
  s.node? n.id = some n ∧ ∃ above, s.UpTo top n.parent above

theorem outermost_none (s : Store) : s.Outermost none := nofun

theorem outermost_of_stored {s : Store} {n : Node} (hn : s.node? n.id = some n)
    (h : n.isGroup = false) : s.Outermost (some n.id) := by
  intro id hid m hm
  obtain rfl := Option.some.inj hid
  cases hn.symm.trans hm
  exact h

theorem eq_of_stored {s : Store} {a b : Node} (ha : s.node? a.id = some a)
    (hb : s.node? b.id = some b) (he : a.id = b.id) : a = b := by
  rw [he, hb] at ha
  exact (Option.some.inj ha).symm

/-- Among distinct nodes of a store there are no more than it has. -/
theorem length_le_size {s : Store} {l : List Node} (hl : ∀ n ∈ l, s.node? n.id = some n)
    (hn : l.Nodup) : l.length ≤ s.size := by
  have hids : (l.map Node.id).Nodup :=
    hn.map_on fun a ha b hb he => eq_of_stored (hl a ha) (hl b hb) he
  have hsub : l.map Node.id ⊆ s.ids := by
    intro id hid
    obtain ⟨a, ha, he⟩ := List.mem_map.1 hid
    exact he ▸ mem_ids_of_node? (hl a ha)
  have hle := (hids.subperm hsub).length_le
  rwa [List.length_map, ids, Dict.keys, List.length_map] at hle

theorem Outermost.takeWhile_chainUp {s : Store} {top : Option NodeId} (h : s.Outermost top)
    (k : Nat) : (s.chainUp k top).takeWhile Node.isGroup = [] := by
  cases k with
  | zero => rfl
  | succ k =>
    cases top with
    | none => rfl
    | some id =>
      cases hn : s.node? id with
      | none => simp only [chainUp, hn, List.takeWhile_nil]
      | some n => simp only [chainUp, hn, List.takeWhile_cons, h id rfl n hn, Bool.false_eq_true, if_false]

namespace UpTo

variable {s : Store} {top p : Option NodeId} {above : List Node}

theorem chainUp (h : s.UpTo top p above) {k : Nat} (hk : above.length ≤ k) :
    s.chainUp k p = above ++ s.chainUp (k - above.length) top := by
  induction h generalizing k with
  | here => rfl
  | up stored _ _ ih =>
    cases k with
    | zero => cases hk
    | succ k =>
      simp only [Store.chainUp, stored, ih (Nat.le_of_succ_le_succ hk), List.cons_append,
        List.length_cons, Nat.succ_sub_succ]

theorem isGroup_of_mem (h : s.UpTo top p above) {a : Node} (ha : a ∈ above) : a.isGroup := by
  induction h with
  | here => cases ha
  | up _ group _ ih =>
    rcases List.mem_cons.1 ha with he | ha
    · exact he ▸ group
    · exact ih ha

/-- From one of the groups on there are fewer of them. -/
theorem of_mem (h : s.UpTo top p above) {a : Node} (ha : a ∈ above) :
    ∃ rest, s.UpTo top a.parent rest ∧ rest.length < above.length := by
  induction h with
  | here => cases ha
  | up _ _ rest ih =>
    rcases List.mem_cons.1 ha with he | ha
    · rw [he]
      exact ⟨_, rest, Nat.lt_succ_self _⟩
    · obtain ⟨rest, hr, hl⟩ := ih ha
      exact ⟨rest, hr, Nat.lt_succ_of_lt hl⟩

variable (hc : s.Consistent)

include hc in
theorem stored_of_mem (h : s.UpTo top p above) {a : Node} (ha : a ∈ above) :
    s.node? a.id = some a := by
  induction h with
  | here => cases ha
  | up stored _ _ ih =>
    rcases List.mem_cons.1 ha with he | ha
    · rw [he, hc.id_of_node? stored, stored]
    · exact ih ha

variable (htop : s.Outermost top)

include htop

/-- There is one way up to a parent that is no group. -/
theorem unique (h : s.UpTo top p above) {above' : List Node} (h' : s.UpTo top p above') :
    above = above' := by
  induction h generalizing above' with
  | here =>
    cases h' with
    | here => rfl
    | up stored group _ => rw [htop _ rfl _ stored] at group; cases group
  | up stored group _ ih =>
    cases h' with
    | here => rw [htop _ rfl _ stored] at group; cases group
    | up stored' _ rest' =>
      cases stored.symm.trans stored'
      rw [ih rest']

include hc

/-- No group comes twice: from the second one on there would be as many as from the first. -/
theorem nodup (h : s.UpTo top p above) : (above.map Node.id).Nodup := by
  induction h with
  | here => exact .nil
  | @up id g above stored _ rest ih =>
    refine List.nodup_cons.2 ⟨fun hm => ?_, ih⟩
    obtain ⟨a, ha, he⟩ := List.mem_map.1 hm
    have hag : a = g := by
      have hstored := rest.stored_of_mem hc ha
      rw [he, hc.id_of_node? stored, stored] at hstored
      exact (Option.some.inj hstored).symm
    obtain ⟨fewer, hr, hl⟩ := rest.of_mem ha
    rw [hag] at hr
    rw [rest.unique htop hr] at hl
    exact Nat.lt_irrefl _ hl

theorem length_le (h : s.UpTo top p above) : above.length ≤ s.size :=
  length_le_size (fun _ ha => h.stored_of_mem hc ha) (h.nodup hc htop).of_map

/-- The groups on the way up are the ones that a path names. -/
theorem groupNames_eq {n : Node} (hn : s.node? n.id = some n) (h : s.UpTo top n.parent above) :
    s.groupNames n.id = above.map Node.name := by
  have hancestors : s.ancestors n.id = above ++ s.chainUp (s.size - above.length) top := by
    rw [ancestors, hn]
    exact h.chainUp (h.length_le hc htop)
  rw [groupNames, hancestors, List.takeWhile_append_of_pos fun a ha => h.isGroup_of_mem ha,
    htop.takeWhile_chainUp, List.append_nil]

/-- A group below these groups is none of them, so that a walk down enters it. -/
theorem fresh (h : s.UpTo top p above) {n : Node} (hn : n ∈ s.children p) (hgroup : n.isGroup) :
    n.id ∈ s.ids ∧ n.id ∉ above.map Node.id := by
  obtain ⟨hstored, rfl⟩ := hc.mem_children_iff.1 hn
  have hnodup := (UpTo.up hstored hgroup h).nodup hc htop
  exact ⟨mem_ids_of_node? hstored, (List.nodup_cons.1 hnodup).1⟩

end UpTo

end Store

end DesignTokens
