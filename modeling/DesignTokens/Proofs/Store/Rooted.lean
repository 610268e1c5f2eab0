/-
Stores of groups and tokens alone, in which every node hangs on a root by groups
and siblings have distinct names (`Plain`). The groups around a node are then
all of its ancestors, and a node is led to by their names, as a namespace
(`Plain.leads`).
-/
import DesignTokens.Proofs.Namespace
import DesignTokens.Proofs.Resolution.OwnType
import DesignTokens.Proofs.Store.UpTo

namespace DesignTokens

namespace Store

/-! ## The groups around -/

/-- The groups from a parent up to a root, the nearest first. -/
inductive Around (s : Store) : Option NodeId → List Node → Prop
  | root : Around s none []
  | up {id : NodeId} {g : Node} {above : List Node} (stored : s.node? id = some g)
      (group : g.isGroup) (around : Around s g.parent above) : Around s (some id) (g :: above)

namespace Around

variable {s : Store} {p : Option NodeId} {above : List Node}

/-- These are the groups up to the root level. -/
theorem upTo (h : s.Around p above) : s.UpTo none p above := by
  induction h with
  | root => exact .here
  | up stored group _ ih => exact .up stored group ih

theorem unique (h : s.Around p above) {above' : List Node} (h' : s.Around p above') :
    above = above' := h.upTo.unique s.outermost_none h'.upTo

variable (hc : s.Consistent)

include hc

theorem length_le (h : s.Around p above) : above.length ≤ s.size :=
  h.upTo.length_le hc s.outermost_none

variable {n : Node} (hn : s.node? n.id = some n) (h : s.Around n.parent above)

include hn h

theorem ancestors_eq : s.ancestors n.id = above := by
  have hroot : ∀ k, s.chainUp k none = [] := fun k => by cases k <;> rfl
  rw [ancestors, hn]
  exact (h.upTo.chainUp (h.length_le hc)).trans (by rw [hroot, List.append_nil])

theorem groupNames_eq : s.groupNames n.id = above.map Node.name :=
  h.upTo.groupNames_eq hc s.outermost_none hn

omit hn h in
/-- The type that comes down through a group is the one it declares, or that comes down to it. -/
theorem inheritedType_child {m a : Node} {g : Group} (hm : s.node? m.id = some m)
    (hp : m.parent = some a.id) (ha : s.node? a.id = some a) (hg : a.content = .group g)
    (h : s.Around a.parent above) : s.inheritedType m = g.declaredType.or (s.inheritedType a) := by
  have hma : s.Around m.parent (a :: above) :=
    hp ▸ .up ha (Node.isGroup_iff.2 ⟨g, hg⟩) h
  rw [inheritedType, inheritedType, hma.ancestors_eq hc hm, h.ancestors_eq hc ha,
    Node.findSome?_passed, hg]
  rfl

end Around

/-! ## As a namespace -/

/-- A store by what stands below each parent. -/
def asNamespace (s : Store) : Namespace (Option NodeId) Node :=
  ⟨fun p n => n ∈ s.children p, Node.content, fun n => some n.id⟩

/-- Only groups and tokens, each on a root by groups; siblings have distinct names. -/
structure Plain (s : Store) : Prop where
  kinds : ∀ n ∈ s.nodes, n.isToken ∨ n.isGroup
  rooted : ∀ n ∈ s.nodes, ∃ above, s.Around n.parent above
  distinct : ∀ a ∈ s.nodes, ∀ b ∈ s.nodes, a.parent = b.parent → a.name = b.name → a = b

/-- Names lead from the top of a store to a node, and this type comes down to it. -/
abbrev Leads (s : Store) (around : List String) (n : Node) (inherited : Option TokenType) : Prop :=
  s.asNamespace.Leads none none around n inherited

section

variable {s : Store} (hc : s.Consistent)

include hc

/-- The names of the groups on the way up lead back down. -/
theorem UpTo.leads {top p : Option NodeId} {above : List Node} (h : s.UpTo top p above)
    (i : Option TokenType) {n : Node} (hn : n ∈ s.children p) :
    ∃ j, s.asNamespace.Leads i top (above.map Node.name).reverse n j := by
  induction h generalizing n with
  | here => exact ⟨i, .here hn⟩
  | @up id a above stored group _ ih =>
    obtain rfl := hc.id_of_node? stored
    obtain ⟨g, hg⟩ := Node.isGroup_iff.1 group
    obtain ⟨j, ha⟩ := ih (hc.mem_children_iff.2 ⟨stored, rfl⟩)
    rw [List.map_cons, List.reverse_cons, Node.name_of_group hg]
    exact ⟨_, ha.snoc hg hn⟩

theorem leads_from {i j : Option TokenType} {p : Option NodeId} {names : List String} {n : Node}
    (h : s.asNamespace.Leads i p names n j) {above : List Node} (ha : s.Around p above)
    (hi : (above.filter Node.isGroup).findSome? (fun a => a.content.declaredType) = i) :
    ∃ around, s.node? n.id = some n ∧ s.Around n.parent around ∧
      (around.map Node.name).reverse = (above.map Node.name).reverse ++ names ∧
      s.inheritedType n = j := by
  induction h generalizing above with
  | here hn =>
    obtain ⟨hstored, hp⟩ := hc.mem_children_iff.1 hn
    subst hp
    refine ⟨above, hstored, ha, by rw [List.append_nil], ?_⟩
    rw [inheritedType, ha.ancestors_eq hc hstored, hi]
  | @through i j p n b g names hb hg _ ih =>
    obtain ⟨hstored, hp⟩ := hc.mem_children_iff.1 hb
    subst hp
    have hbelow : s.Around (some b.id) (b :: above) := .up hstored (Node.isGroup_iff.2 ⟨g, hg⟩) ha
    obtain ⟨around, hn, haround, hnames, hj⟩ := ih hbelow (by
      rw [Node.findSome?_passed, hi, show b.content = _ from hg]
      rfl)
    refine ⟨around, hn, haround, ?_, hj⟩
    rw [hnames, List.map_cons, Node.name_of_group hg, List.reverse_cons, List.append_assoc,
      List.singleton_append]

/-- What names lead to is stored; the names are those of its ancestors, and so is the type. -/
theorem Leads.stored {names : List String} {n : Node} {j : Option TokenType}
    (h : s.Leads names n j) :
    s.node? n.id = some n ∧ s.groupNames n.id = names.reverse ∧ s.inheritedType n = j := by
  obtain ⟨around, hn, ha, hnames, hj⟩ := leads_from hc h .root rfl
  refine ⟨hn, ?_, hj⟩
  rw [ha.groupNames_eq hc hn, ← List.reverse_reverse (around.map Node.name), hnames]
  rfl

theorem inheritedType_of_root {n : Node} (hn : n ∈ s.children none) :
    s.inheritedType n = none := by
  obtain ⟨hstored, hp⟩ := hc.mem_children_iff.1 hn
  have htop : s.Around n.parent [] := hp ▸ .root
  rw [inheritedType, htop.ancestors_eq hc hstored]
  rfl

theorem Around.leads {p : Option NodeId} {above : List Node} (h : s.Around p above) {n : Node}
    (hn : n ∈ s.children p) : s.Leads (above.map Node.name).reverse n (s.inheritedType n) := by
  obtain ⟨j, hleads⟩ := h.upTo.leads hc none hn
  rw [(Leads.stored hc hleads).2.2]
  exact hleads

/-- Names lead to every node. -/
theorem Plain.leads (h : s.Plain) {n : Node} (hn : n ∈ s.nodes) :
    ∃ names, s.Leads names n (s.inheritedType n) := by
  obtain ⟨above, ha⟩ := h.rooted n hn
  exact ⟨_, ha.leads hc (hc.mem_children_iff_mem_nodes.2 ⟨hn, rfl⟩)⟩

end

end Store

end DesignTokens
