/-
Nodes as a tree of any depth and with any contents, in one inductive type: each
node with its first child and its next sibling. The nodes of a document are
those of a grove, taken in reading order; where ids are distinct and siblings
have ascending keys, the store of these nodes has under every node the children
that the grove has there (`children_ofNodes`, `holds_ofNodes`).
-/
import DesignTokens.Proofs.Pointer.Format
import DesignTokens.Proofs.Store.OfNodes

namespace DesignTokens

/-- A node, what is below it, and its siblings behind it. -/
inductive Grove where
  | nil
  | node (id : NodeId) (order : String) (content : Content) (below next : Grove)

namespace Grove

/-- The nodes in reading order, the topmost ones under a parent. -/
def nodes (parent : Option NodeId) : Grove → List Node
  | nil => []
  | node id order content below next =>
    ⟨id, parent, order, content⟩ :: (below.nodes (some id) ++ next.nodes parent)

/-- The topmost nodes. -/
def heads (parent : Option NodeId) : Grove → List Node
  | nil => []
  | node id order content _ next => ⟨id, parent, order, content⟩ :: next.heads parent

/-- The ids in reading order. -/
def ids : Grove → List NodeId
  | nil => []
  | node id _ _ below next => id :: (below.ids ++ next.ids)

/-- The keys of the topmost nodes. -/
def orders : Grove → List String
  | nil => []
  | node _ order _ _ next => order :: next.orders

/-- Siblings have ascending keys. -/
def Keyed : Grove → Prop
  | nil => True
  | node _ order _ below next => (∀ k ∈ next.orders, order < k) ∧ below.Keyed ∧ next.Keyed

/-- The keys and contents of the topmost nodes. -/
def tops : Grove → List (String × Content)
  | nil => []
  | node _ order content _ next => (order, content) :: next.tops

/-- Each node stands in a relation to the siblings behind it. -/
def Siblings (R : String × Content → String × Content → Prop) : Grove → Prop
  | nil => True
  | node _ order content below next =>
    (∀ b ∈ next.tops, R (order, content) b) ∧ below.Siblings R ∧ next.Siblings R

/-- A store has the children of each node. -/
def Holds (s : Store) : Grove → Prop
  | nil => True
  | node id _ _ below next =>
    s.children (some id) = below.heads (some id) ∧ below.Holds s ∧ next.Holds s

theorem map_id_nodes (g : Grove) (p : Option NodeId) : (g.nodes p).map Node.id = g.ids := by
  induction g generalizing p with
  | nil => rfl
  | node id o c below next ihb ihn => simp [nodes, ids, ihb, ihn]

theorem orders_eq (g : Grove) : g.orders = g.tops.map Prod.fst := by
  induction g with
  | nil => rfl
  | node id o c below next ihb ihn => rw [orders, tops, List.map_cons, ihn]

theorem Siblings.mono {R R' : String × Content → String × Content → Prop}
    (hR : ∀ a b, R a b → R' a b) {g : Grove} (h : g.Siblings R) : g.Siblings R' := by
  induction g with
  | nil => trivial
  | node id o c below next ihb ihn =>
    exact ⟨fun b hb => hR _ b (h.1 b hb), ihb h.2.1, ihn h.2.2⟩

theorem keyed_iff {g : Grove} : g.Keyed ↔ g.Siblings fun a b => a.1 < b.1 := by
  induction g with
  | nil => exact Iff.rfl
  | node id o c below next ihb ihn =>
    rw [Keyed, Siblings, ihb, ihn, orders_eq, List.forall_mem_map]

/-- A node is at the top, under the parent given, or has its parent in the grove. -/
theorem of_mem_nodes {g : Grove} {p : Option NodeId} {n : Node} (h : n ∈ g.nodes p) :
    n.id ∈ g.ids ∧ ((n.parent = p ∧ (n.order, n.content) ∈ g.tops) ∨
      ∃ i ∈ g.ids, n.parent = some i) := by
  induction g generalizing p with
  | nil => cases h
  | node id o c below next ihb ihn =>
    simp only [nodes, List.mem_cons, List.mem_append] at h
    simp only [ids, tops, List.mem_cons, List.mem_append]
    rcases h with h | h | h
    · subst h
      exact ⟨.inl rfl, .inl ⟨rfl, .inl rfl⟩⟩
    · obtain ⟨hid, hp⟩ := ihb h
      refine ⟨.inr (.inl hid), .inr ?_⟩
      rcases hp with ⟨hp, -⟩ | ⟨i, hi, hp⟩
      · exact ⟨id, .inl rfl, hp⟩
      · exact ⟨i, .inr (.inl hi), hp⟩
    · obtain ⟨hid, hp⟩ := ihn h
      refine ⟨.inr (.inr hid), ?_⟩
      rcases hp with ⟨hp, ho⟩ | ⟨i, hi, hp⟩
      · exact .inl ⟨hp, .inr ho⟩
      · exact .inr ⟨i, .inr (.inr hi), hp⟩

theorem parent_ne {g : Grove} {p q : Option NodeId} (hq : q ≠ p) (hg : ∀ i ∈ g.ids, q ≠ some i)
    {n : Node} (h : n ∈ g.nodes p) : n.parent ≠ q := by
  intro he
  rcases (of_mem_nodes h).2 with ⟨hp, -⟩ | ⟨i, hi, hp⟩
  · exact hq (he ▸ hp)
  · exact hg i hi (he ▸ hp)

/-- Ids are distinct, and none of them is that of the parent above. -/
structure Apart (p : Option NodeId) (g : Grove) : Prop where
  nodup : g.ids.Nodup
  above : ∀ i ∈ g.ids, p ≠ some i

section

variable {p : Option NodeId} {id : NodeId} {o : String} {c : Content} {below next : Grove}
  (h : Apart p (node id o c below next))

include h

theorem Apart.of_below : Apart (some id) below := by
  have hn := h.nodup
  simp only [ids, List.nodup_cons, List.mem_append, not_or, List.nodup_append] at hn
  exact ⟨hn.2.1, fun i hi he => hn.1.1 (Option.some.inj he ▸ hi)⟩

theorem Apart.of_next : Apart p next := by
  have hn := h.nodup
  simp only [ids, List.nodup_cons, List.nodup_append] at hn
  exact ⟨hn.2.2.1, fun i hi => h.above i (by simp [ids, hi])⟩

theorem Apart.ne_of_mem {i j : NodeId} (hi : i = id ∨ i ∈ below.ids) (hj : j ∈ next.ids) :
    i ≠ j := by
  have hn := h.nodup
  simp only [ids, List.nodup_cons, List.mem_append, not_or, List.nodup_append] at hn
  rcases hi with he | hi
  · subst he
    exact fun he => hn.1.2 (he ▸ hj)
  · exact hn.2.2.2 i hi j hj

theorem Apart.id_notMem : id ∉ below.ids := by
  have hn := h.nodup
  simp only [ids, List.nodup_cons, List.mem_append, not_or] at hn
  exact hn.1.1

end

/-- In reading order ids are distinct, and siblings stand in the relation that the grove has. -/
theorem pairwise_nodes {R : String × Content → String × Content → Prop} {g : Grove}
    {p : Option NodeId} (ha : Apart p g) (hR : g.Siblings R) :
    (g.nodes p).Pairwise fun a b =>
      a.id ≠ b.id ∧ (a.parent = b.parent → R (a.order, a.content) (b.order, b.content)) := by
  induction g generalizing p with
  | nil => exact .nil
  | node id o c below next ihb ihn =>
    obtain ⟨hfirst, hkb, hkn⟩ := hR
    refine List.pairwise_cons.2 ⟨fun n hn => ?_, List.pairwise_append.2
      ⟨ihb ha.of_below hkb, ihn ha.of_next hkn, fun a hma b hmb => ?_⟩⟩
    · rcases List.mem_append.1 hn with hn | hn
      · refine ⟨fun he => ?_, fun hp => ?_⟩
        · exact ha.id_notMem ((show id = n.id from he) ▸ (of_mem_nodes hn).1)
        · have hpn := parent_ne (ha.above id (by simp [ids]))
            (fun i hi => ha.above i (by simp [ids, hi])) hn
          exact absurd hp.symm hpn
      · refine ⟨ha.ne_of_mem (.inl rfl) (of_mem_nodes hn).1, fun hp => ?_⟩
        rcases (of_mem_nodes hn).2 with ⟨-, ht⟩ | ⟨i, hi, hpi⟩
        · exact hfirst _ ht
        · exact absurd (hp.trans hpi) (ha.of_next.above i hi)
    · have hida : a.id = id ∨ a.id ∈ below.ids := .inr (of_mem_nodes hma).1
      refine ⟨ha.ne_of_mem hida (of_mem_nodes hmb).1, fun hp => ?_⟩
      -- The parent of `a` is `id` or lies below it; that of `b` is `p` or lies behind.
      have hpa : ∃ i, (i = id ∨ i ∈ below.ids) ∧ a.parent = some i := by
        rcases (of_mem_nodes hma).2 with ⟨hpa, -⟩ | ⟨i, hi, hpa⟩
        · exact ⟨id, .inl rfl, hpa⟩
        · exact ⟨i, .inr hi, hpa⟩
      obtain ⟨i, hi, hpa⟩ := hpa
      rcases (of_mem_nodes hmb).2 with ⟨hpb, -⟩ | ⟨j, hj, hpb⟩
      · have hmem : i ∈ (node id o c below next).ids := by
          rcases hi with he | hi
          · simp [ids, he]
          · simp [ids, hi]
        exact absurd (hpb.symm.trans (hp.symm.trans hpa)) (ha.above i hmem)
      · rw [hpa, hpb] at hp
        exact absurd (Option.some.inj hp) (ha.ne_of_mem hi hj)

theorem kept_nodes {g : Grove} {p : Option NodeId} (ha : Apart p g) (hk : g.Keyed) :
    Store.Kept (g.nodes p) :=
  pairwise_nodes ha (keyed_iff.1 hk)

theorem filter_eq_nil {g : Grove} {p q : Option NodeId} (hq : q ≠ p)
    (hg : ∀ i ∈ g.ids, q ≠ some i) : (g.nodes p).filter (fun n => n.parent = q) = [] := by
  rw [List.filter_eq_nil_iff]
  intro n hn
  simpa using parent_ne hq hg hn

theorem filter_eq_heads {g : Grove} {p : Option NodeId} (ha : Apart p g) :
    (g.nodes p).filter (fun n => n.parent = p) = g.heads p := by
  induction g with
  | nil => rfl
  | node id o c below next ihb ihn =>
    have hb := filter_eq_nil (ha.above id (by simp [ids]))
      (g := below) fun i hi => ha.above i (by simp [ids, hi])
    rw [nodes, List.filter_cons_of_pos (by simp), List.filter_append, hb, List.nil_append,
      ihn ha.of_next, heads]

theorem holds_of_filter {s : Store} {g : Grove} {p : Option NodeId} (ha : Apart p g)
    (hs : ∀ i ∈ g.ids, s.children (some i) = (g.nodes p).filter fun n => n.parent = some i) :
    g.Holds s := by
  induction g generalizing p with
  | nil => trivial
  | node id o c below next ihb ihn =>
    have hown : ∀ i ∈ (node id o c below next).ids,
        s.children (some i) = (below.nodes (some id)).filter (fun n => n.parent = some i) ++
          (next.nodes p).filter fun n => n.parent = some i := by
      intro i hi
      have hp : p ≠ some i := ha.above i hi
      rw [hs i hi, nodes, List.filter_cons_of_neg (by simpa using hp), List.filter_append]
    have hnext : ∀ i, (i = id ∨ i ∈ below.ids) →
        (next.nodes p).filter (fun n => n.parent = some i) = [] := by
      intro i hi
      refine filter_eq_nil (fun he => ha.above i ?_ he.symm) fun j hj he => ?_
      · rcases hi with he | hi
        · simp [ids, he]
        · simp [ids, hi]
      · exact ha.ne_of_mem hi hj (Option.some.inj he)
    refine ⟨?_, ihb ha.of_below fun i hi => ?_, ihn ha.of_next fun i hi => ?_⟩
    · rw [hown id (by simp [ids]), hnext id (.inl rfl), filter_eq_heads ha.of_below, List.append_nil]
    · rw [hown i (by simp [ids, hi]), hnext i (.inr hi), List.append_nil]
    · have hb : (below.nodes (some id)).filter (fun n => n.parent = some i) = [] := by
        refine filter_eq_nil (fun he => ?_) fun j hj he => ?_
        · exact ha.ne_of_mem (.inl rfl) hi (Option.some.inj he).symm
        · exact ha.ne_of_mem (.inr hj) hi (Option.some.inj he).symm
      rw [hown i (by simp [ids, hi]), hb, List.nil_append]

/-! ## Paths for ids -/

/-- Every id is a path from the names above through one of the names at the top. -/
def Below (names tops : List String) (g : Grove) : Prop :=
  ∀ id ∈ g.ids, ∃ top ∈ tops, ∃ rest, id = ⟨Pointer.format (names ++ top :: rest)⟩

theorem below_nil (names tops : List String) : nil.Below names tops := nofun

theorem format_ne_of_ne {names : List String} {a b : String} (h : a ≠ b) (r r' : List String) :
    (⟨Pointer.format (names ++ a :: r)⟩ : NodeId) ≠ ⟨Pointer.format (names ++ b :: r')⟩ := by
  intro he
  have hp := List.append_cancel_left (Pointer.format_injective (NodeId.mk.inj he))
  exact h (List.cons.inj hp).1

theorem format_ne_append (names : List String) (a : String) (r : List String) :
    (⟨Pointer.format names⟩ : NodeId) ≠ ⟨Pointer.format (names ++ a :: r)⟩ := by
  intro he
  have hp := congrArg List.length (Pointer.format_injective (NodeId.mk.inj he))
  simp at hp

section

variable {names tops tops' : List String} {name o : String} {c : Content} {below next : Grove}
  (hb : below.Below (names ++ [name]) tops') (hn : next.Below names tops)

include hb hn

theorem below_node :
    (node ⟨Pointer.format (names ++ [name])⟩ o c below next).Below names (name :: tops) := by
  intro id hid
  rcases List.mem_cons.1 hid with he | hid
  · exact ⟨name, List.mem_cons_self .., [], he⟩
  rcases List.mem_append.1 hid with hid | hid
  · obtain ⟨top, -, rest, he⟩ := hb id hid
    refine ⟨name, List.mem_cons_self .., top :: rest, ?_⟩
    rw [he, List.append_assoc, List.singleton_append]
  · obtain ⟨top, htop, rest, he⟩ := hn id hid
    exact ⟨top, List.mem_cons_of_mem _ htop, rest, he⟩

/-- A new name at the top makes new paths. -/
theorem nodup_ids_node (hname : name ∉ tops) (hbn : below.ids.Nodup) (hnn : next.ids.Nodup) :
    (node ⟨Pointer.format (names ++ [name])⟩ o c below next).ids.Nodup := by
  have hnew : ∀ rest, (⟨Pointer.format (names ++ name :: rest)⟩ : NodeId) ∉ next.ids := by
    intro rest hid
    obtain ⟨top, htop, rest', he⟩ := hn _ hid
    have hne : name ≠ top := fun he => hname (he ▸ htop)
    exact format_ne_of_ne hne rest rest' he
  rw [ids, List.nodup_cons, List.nodup_append, List.mem_append, not_or]
  refine ⟨⟨fun hid => ?_, hnew []⟩, hbn, hnn, fun i hi j hj he => ?_⟩
  · obtain ⟨top, -, rest, he⟩ := hb _ hid
    exact format_ne_append _ top rest he
  · obtain ⟨top, -, rest, hi⟩ := hb i hi
    rw [← he, hi, List.append_assoc] at hj
    exact hnew (top :: rest) hj

end

/-- Each id is the path of names to its node. -/
def Pathed (names : List String) : Grove → Prop
  | nil => True
  | node id _ content below next => id = ⟨Pointer.format (names ++ [content.name])⟩ ∧
      below.Pathed (names ++ [content.name]) ∧ next.Pathed names

theorem Pathed.below {names : List String} {g : Grove} (h : g.Pathed names) :
    g.Below names (g.tops.map fun a => a.2.name) := by
  induction g generalizing names with
  | nil => exact below_nil names []
  | node id o c below next ihb ihn =>
    obtain ⟨rfl, hb, hn⟩ := h
    exact below_node (ihb hb) (ihn hn)

/-- Where siblings have distinct names, no two paths of names are the same. -/
theorem Pathed.nodup_ids {names : List String} {g : Grove} (h : g.Pathed names)
    (hs : g.Siblings fun a b => a.2.name ≠ b.2.name) : g.ids.Nodup := by
  induction g generalizing names with
  | nil => exact .nil
  | node id o c below next ihb ihn =>
    obtain ⟨rfl, hb, hn⟩ := h
    obtain ⟨hname, hsb, hsn⟩ := hs
    refine nodup_ids_node hb.below hn.below (fun hm => ?_) (ihb hb hsb) (ihn hn hsn)
    obtain ⟨b, hmem, he⟩ := List.mem_map.1 hm
    exact hname b hmem he.symm

/-- Siblings have distinct names and ascending keys. -/
def Orderly (g : Grove) : Prop := g.Siblings fun a b => a.2.name ≠ b.2.name ∧ a.1 < b.1

theorem Orderly.keyed {g : Grove} (h : g.Orderly) : g.Keyed :=
  keyed_iff.2 (h.mono fun _ _ => And.right)

theorem Pathed.nodup_ids_of_orderly {names : List String} {g : Grove} (h : g.Pathed names)
    (ho : g.Orderly) : g.ids.Nodup :=
  h.nodup_ids (ho.mono fun _ _ => And.left)

/-! ## The store of a grove -/

section

variable {g : Grove} (hn : g.ids.Nodup) (hk : g.Keyed)

include hn

theorem apart_none : Apart none g := ⟨hn, fun _ _ => nofun⟩

include hk

theorem children_ofNodes (p : Option NodeId) :
    (Store.ofNodes (g.nodes none)).children p = (g.nodes none).filter fun n => n.parent = p :=
  Store.children_ofNodes (kept_nodes (apart_none hn) hk) p

theorem roots_ofNodes : (Store.ofNodes (g.nodes none)).children none = g.heads none := by
  rw [children_ofNodes hn hk, filter_eq_heads (apart_none hn)]

theorem holds_ofNodes : g.Holds (Store.ofNodes (g.nodes none)) :=
  holds_of_filter (apart_none hn) fun _ _ => children_ofNodes hn hk _

end

/-- A store has the nodes of a grove, apart from what is above, and their children. -/
structure Within (s : Store) (p : Option NodeId) (g : Grove) : Prop where
  apart : Apart p g
  stored : ∀ i ∈ g.ids, i ∈ s.ids
  holds : g.Holds s

section

variable {s : Store} {p : Option NodeId} {id : NodeId} {o : String} {c : Content}
  {below next : Grove} (h : Within s p (node id o c below next))

include h

theorem Within.stored_id : id ∈ s.ids := h.stored id (List.mem_cons_self ..)

theorem Within.children_eq : s.children (some id) = below.heads (some id) := h.holds.1

theorem Within.of_below : Within s (some id) below :=
  ⟨h.apart.of_below, fun i hi => h.stored i (List.mem_cons_of_mem _ (List.mem_append_left _ hi)),
    h.holds.2.1⟩

theorem Within.of_next : Within s p next :=
  ⟨h.apart.of_next, fun i hi => h.stored i (List.mem_cons_of_mem _ (List.mem_append_right _ hi)),
    h.holds.2.2⟩

end

theorem within_ofNodes {g : Grove} (hn : g.ids.Nodup) (hk : g.Keyed) :
    Within (Store.ofNodes (g.nodes none)) none g := by
  refine ⟨apart_none hn, fun i hi => ?_, holds_ofNodes hn hk⟩
  rw [← (Store.reachable_ofNodes _).consistent.map_id_nodes, Store.nodes_ofNodes, map_id_nodes]
  · exact hi
  · rwa [map_id_nodes]

end Grove

end DesignTokens
