/-
A plain store hung below a set. The set is the only root, what was a root lies
below it, and every id stands behind that of the set. Chains of ancestors end at
the set, which is no group, so that neither paths nor types change; and the set
is the only layer besides the root level, where no token is. So what hangs there
is a copy (`Mounted.copied`), which resolves as the tokens do alone.

The empty id has no place below a set: it would be the set's own.
-/
import Mathlib.Data.List.TakeWhile
import DesignTokens.Proofs.Resolution.Copies
import DesignTokens.Proofs.Resolution.NamePath

namespace DesignTokens

/-- An id with another one put in front. -/
def NodeId.under (base id : NodeId) : NodeId := ⟨base.text ++ id.text⟩

/-- Where the children of a parent lie below a set. -/
def NodeId.mountPoint (base : NodeId) (parent : Option NodeId) : NodeId :=
  parent.elim base base.under

/-- A node of a store that is hung below a set. -/
def Node.mounted (base : NodeId) (n : Node) : Node :=
  { n with id := base.under n.id, parent := some (base.mountPoint n.parent) }

namespace NodeId

variable {base : NodeId}

theorem under_injective {a b : NodeId} (h : base.under a = base.under b) : a = b := by
  obtain ⟨a⟩ := a
  obtain ⟨b⟩ := b
  have htext : base.text ++ a = base.text ++ b := congrArg NodeId.text h
  exact congrArg NodeId.mk (String.append_right_inj _ |>.1 htext)

theorem under_ne_self {id : NodeId} (h : id ≠ ⟨""⟩) : base.under id ≠ base := by
  have hbase : base.under ⟨""⟩ = base := congrArg NodeId.mk String.append_empty
  intro he
  exact h (under_injective (he.trans hbase.symm))

theorem mountPoint_injective {p q : Option NodeId} (hp : p ≠ some ⟨""⟩) (hq : q ≠ some ⟨""⟩)
    (h : base.mountPoint p = base.mountPoint q) : p = q := by
  cases p with
  | none =>
    cases q with
    | none => rfl
    | some q => exact absurd h.symm (under_ne_self fun he => hq (congrArg some he))
  | some p =>
    cases q with
    | none => exact absurd h (under_ne_self fun he => hp (congrArg some he))
    | some q => exact congrArg some (under_injective h)

end NodeId

namespace Store

/-- A set is the only root of a store, and below it lies another store. -/
structure Mounted (root : Node) (s t : Store) : Prop where
  isSet : ∃ set, root.content = .set set
  top : root.parent = none
  stored : t.node? root.id = some root
  roots : t.children none = [root]
  unnamed : s.node? ⟨""⟩ = none
  node : ∀ n, s.node? n.id = some n → t.node? (root.id.under n.id) = some (n.mounted root.id)
  children : ∀ p, p ≠ some ⟨""⟩ →
    t.children (some (root.id.mountPoint p)) = (s.children p).map (Node.mounted root.id)
  size : t.size = s.size + 1

namespace Mounted

variable {root : Node} {s t : Store} (h : Mounted root s t)

include h

theorem id_ne {n : Node} (hn : s.node? n.id = some n) : n.id ≠ ⟨""⟩ := by
  intro he
  rw [he, h.unnamed] at hn
  cases hn

theorem not_isGroup : root.isGroup = false := by
  obtain ⟨set, hset⟩ := h.isSet
  rw [Node.isGroup, Node.group?, hset]
  rfl

theorem not_isToken : root.isToken = false := by
  obtain ⟨set, hset⟩ := h.isSet
  rw [Node.isToken, Node.token?, hset]
  rfl

theorem copies (hc : s.Consistent) : Copies (· ≠ some ⟨""⟩)
    (fun p => some (root.id.mountPoint p)) (Node.mounted root.id) s t where
  id _ := rfl
  content _ := rfl
  children := h.children
  closed _ _ _ hn he := h.id_ne (hc.mem_children_iff.1 hn).1 (Option.some.inj he)

/-! ## Ancestors -/

/-- The way up ends at the set, which takes one more step than the way up to a root. -/
theorem chainUp (hc : s.Consistent) {p : Option NodeId} {above : List Node}
    (ha : s.Around p above) {k : Nat} (hk : above.length < k) :
    t.chainUp k (some (root.id.mountPoint p)) =
      above.map (Node.mounted root.id) ++ [root] := by
  induction ha generalizing k with
  | root =>
    obtain ⟨k, rfl⟩ := Nat.exists_eq_succ_of_ne_zero (Nat.ne_of_gt hk)
    show t.chainUp (k + 1) (some root.id) = [root]
    simp only [Store.chainUp, h.stored, h.top]
    cases k <;> rfl
  | @up id g above stored _ _ ih =>
    obtain ⟨k, rfl⟩ := Nat.exists_eq_succ_of_ne_zero (Nat.ne_of_gt (Nat.zero_lt_of_lt hk))
    obtain rfl := hc.id_of_node? stored
    show t.chainUp (k + 1) (some (root.id.under g.id)) = _
    simp only [Store.chainUp, h.node g stored]
    exact congrArg (g.mounted root.id :: ·) (ih (Nat.lt_of_succ_lt_succ hk))

variable (hc : s.Consistent) (hp : s.Plain) {n : Node} (hn : s.node? n.id = some n)

include hc hp hn

theorem ancestors_eq : t.ancestors (root.id.under n.id) =
    (s.ancestors n.id).map (Node.mounted root.id) ++ [root] := by
  obtain ⟨above, ha⟩ := hp.rooted n (hc.node?_eq_some_iff.1 hn).1
  -- The set is one more node, so the walk is not cut off before it.
  have hlength : above.length < t.size := by
    rw [h.size]
    exact Nat.lt_succ_of_le (ha.length_le hc)
  rw [ancestors, h.node n hn, ha.ancestors_eq hc hn]
  exact h.chainUp hc ha hlength

theorem groupNames_eq : t.groupNames (root.id.under n.id) = s.groupNames n.id := by
  obtain ⟨above, ha⟩ := hp.rooted n (hc.node?_eq_some_iff.1 hn).1
  have hgroups : ∀ a ∈ above.map (Node.mounted root.id), a.isGroup :=
    List.forall_mem_map.2 fun a hmem => (ha.upTo.isGroup_of_mem hmem : a.isGroup)
  rw [groupNames, h.ancestors_eq hc hp hn, ha.groupNames_eq hc hn, ha.ancestors_eq hc hn,
    List.takeWhile_append_of_pos hgroups,
    List.takeWhile_cons_of_neg (by simp [h.not_isGroup]), List.append_nil, List.map_map]
  rfl

theorem displayOf_eq : t.displayOf (root.id.under n.id) = s.displayOf n.id := by
  have hnames : t.namesTo (n.mounted root.id) = s.namesTo n := by
    have hgroups : t.groupNames (n.mounted root.id).id = s.groupNames n.id :=
      h.groupNames_eq hc hp hn
    rw [namesTo, namesTo, hgroups]
    rfl
  rw [displayOf, displayOf, path?, path?, h.node n hn, hn]
  simp only [Option.map_some, Option.getD_some, hnames]

theorem ownType_eq : t.ownType (n.mounted root.id) = s.ownType n := by
  have hancestors : t.ancestors (n.mounted root.id).id = _ := h.ancestors_eq hc hp hn
  rw [ownType, ownType, hancestors, List.filter_append, List.filter_cons_of_neg
    (by simp [h.not_isGroup]), List.filter_nil, List.append_nil, List.filter_map,
    List.findSome?_map]
  rfl

omit hn

/-! ## Lookup -/

omit hc hp in
/-- Whoever looks sees the root level, and the set in front of it. -/
theorem layers_eq (from? : Option NodeId) : t.layers from? = [none, some root.id] := by
  obtain ⟨set, hset⟩ := h.isSet
  simp only [layers, h.roots, List.flatMap_singleton, containerLayers, hset]
  rfl

omit hc hp in
/-- At the root level there is only the set. -/
theorem tokenBelow?_none (names : List String) : t.tokenBelow? none names = none := by
  match names with
  | [] => rfl
  | [name] => simp [tokenBelow?, h.roots, h.not_isGroup, h.not_isToken]
  | name :: next :: names => simp [tokenBelow?, h.roots, h.not_isGroup]

theorem tokenAt?_eq (dotted : String) (from? from?' : Option NodeId) :
    t.tokenAt? dotted from?' = (s.tokenAt? dotted from?).map (Node.mounted root.id) := by
  have hnone : none ≠ some (⟨""⟩ : NodeId) := nofun
  have hbelow : ∀ names, t.tokenBelow? (some root.id) names =
      (s.tokenBelow? none names).map (Node.mounted root.id) :=
    (h.copies hc).tokenBelow? hnone
  rw [hp.tokenAt?_eq hc, tokenAt?, lookup?, h.layers_eq]
  split
  · rfl
  · simp only [List.reverse_cons, List.reverse_nil, List.nil_append, List.singleton_append,
      List.findSome?_cons, h.tokenBelow?_none, hbelow]
    cases s.tokenBelow? none (Alias.segmentsOf dotted) <;> rfl

theorem copied : Copied root.id.under (Node.mounted root.id) s t where
  injective _ _ := NodeId.under_injective
  id _ := rfl
  content _ := rfl
  stored := h.node
  displayOf _ hn := h.displayOf_eq hc hp hn
  ownType _ hn := h.ownType_eq hc hp hn
  target n dotted _ := by
    simp only [target, h.tokenAt?_eq hc hp dotted (some n.id)]
    cases s.tokenAt? dotted (some n.id) <;> rfl

end Mounted

/-! ## The nodes of a set -/

section

variable {root : Node} {ns : List Node}

theorem kept_mounted (hroot : root.parent = none) (hk : Kept ns)
    (hids : ∀ n ∈ ns, n.id ≠ ⟨""⟩ ∧ n.parent ≠ some ⟨""⟩) :
    Kept (root :: ns.map (Node.mounted root.id)) := by
  refine List.pairwise_cons.2 ⟨List.forall_mem_map.2 fun n hn => ⟨?_, ?_⟩, ?_⟩
  · exact (NodeId.under_ne_self (hids n hn).1).symm
  · rw [hroot]
    nofun
  · refine List.pairwise_map.2 (hk.imp_of_mem fun {a b} ha hb hab => ⟨?_, fun hp => ?_⟩)
    · exact fun he => hab.1 (NodeId.under_injective he)
    · exact hab.2 (NodeId.mountPoint_injective (hids a ha).2 (hids b hb).2 (Option.some.inj hp))

/-- The store of a set and the nodes below it. -/
theorem mounted_ofNodes {set : TokenSet} (hset : root.content = .set set)
    (hroot : root.parent = none) (hk : Kept ns)
    (hids : ∀ n ∈ ns, n.id ≠ ⟨""⟩ ∧ n.parent ≠ some ⟨""⟩) :
    Mounted root (ofNodes ns) (ofNodes (root :: ns.map (Node.mounted root.id))) := by
  have hkept := kept_mounted hroot hk hids
  have hcs := (reachable_ofNodes ns).consistent
  have hct := (reachable_ofNodes (root :: ns.map (Node.mounted root.id))).consistent
  have hns := nodes_ofNodes hk.nodup
  have hnt := nodes_ofNodes hkept.nodup
  have hsize (s : Store) : s.size = s.nodes.length := (List.length_map ..).symm
  constructor
  case isSet => exact ⟨set, hset⟩
  case top => exact hroot
  case stored =>
    refine hct.node?_eq_some_iff.2 ⟨?_, rfl⟩
    rw [hnt]
    exact List.mem_cons_self
  case roots =>
    have hbelow : (ns.map (Node.mounted root.id)).filter (fun n => n.parent = none) = [] :=
      List.filter_eq_nil_iff.2 (List.forall_mem_map.2 fun n _ => by simp [Node.mounted])
    rw [children_ofNodes hkept, List.filter_cons_of_pos (by simpa using hroot), hbelow]
  case unnamed =>
    refine Option.eq_none_iff_forall_ne_some.2 fun n hn => ?_
    obtain ⟨hmem, hid⟩ := hcs.node?_eq_some_iff.1 hn
    exact (hids n (hns ▸ hmem)).1 hid
  case node =>
    intro n hn
    have hmem : n ∈ ns := hns ▸ (hcs.node?_eq_some_iff.1 hn).1
    refine hct.node?_eq_some_iff.2 ⟨?_, rfl⟩
    rw [hnt]
    exact List.mem_cons_of_mem _ (List.mem_map_of_mem hmem)
  case children =>
    intro p hp
    rw [children_ofNodes hkept, children_ofNodes hk, List.filter_cons_of_neg (by simp [hroot]),
      List.filter_map]
    refine congrArg (List.map _) (List.filter_congr fun n hn => decide_eq_decide.2 ?_)
    refine ⟨fun he => ?_, fun he => ?_⟩
    · exact NodeId.mountPoint_injective (hids n hn).2 hp (Option.some.inj he)
    · rw [← he]
      rfl
  case size =>
    rw [hsize, hsize, hnt, hns, List.length_cons, List.length_map]

end

end Store

end DesignTokens
