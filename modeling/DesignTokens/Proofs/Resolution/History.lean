/-
What shows of the history of a store. Two stores may hold the same nodes by id
and yet have come to them by different batches; they differ then in sequence
numbers and in the order in which all nodes are listed. Sequence numbers settle
only ties between siblings, so where no two siblings have one key, the children
of every parent are the same (`Reachable.sameReads`).

Everything else asks a store for nodes by id, for children, and for the number
of nodes (`SameReads`). So whatever is looked up, resolved, checked for circles
or written is the same in both, with the same errors (`history_hidden`).
-/
import DesignTokens.Document.Resolver.Writer
import DesignTokens.Proofs.Document.Tree.Written
import DesignTokens.Proofs.Resolution.Circular
import DesignTokens.Proofs.Resolution.SameBelow

namespace DesignTokens.Store

/-- No two siblings have one key. -/
def DistinctKeys (s : Store) : Prop :=
  ∀ a ∈ s.nodes, ∀ b ∈ s.nodes, a.parent = b.parent → a.order = b.order → a = b

instance (s : Store) : Decidable s.DistinctKeys :=
  inferInstanceAs (Decidable (∀ a ∈ s.nodes, ∀ b ∈ s.nodes, _ → _ → a = b))

/-- Two stores answer alike when they are asked for nodes, for children and for their size. -/
structure SameReads (s t : Store) : Prop where
  node? : ∀ id, s.node? id = t.node? id
  children : ∀ p, s.children p = t.children p
  size : s.size = t.size

/-! ## The same nodes -/

section

variable {s t : Store} (hs : s.Consistent) (ht : t.Consistent)
  (hnode : ∀ id, s.node? id = t.node? id)

include hs ht hnode

/-- Stores that hold the same nodes by id list the same nodes. -/
theorem Consistent.perm_nodes : s.nodes.Perm t.nodes := by
  refine (List.perm_ext_iff_of_nodup hs.nodup_nodes.of_map ht.nodup_nodes.of_map).2 fun n => ?_
  have hmem : ∀ {u : Store}, u.Consistent → (n ∈ u.nodes ↔ u.node? n.id = some n) := by
    intro u hu
    rw [hu.node?_eq_some_iff, and_iff_left rfl]
  rw [hmem hs, hmem ht, hnode]

omit hnode in
theorem Consistent.node?_eq_of_perm (hperm : s.nodes.Perm t.nodes) (id : NodeId) :
    s.node? id = t.node? id := by
  ext n
  rw [hs.node?_eq_some_iff, ht.node?_eq_some_iff, hperm.mem_iff]

/-- Keys alone stand children in order, if no two of them are the same. -/
theorem Consistent.children_eq_of_distinctKeys (hkeys : s.DistinctKeys) (p : Option NodeId) :
    s.children p = t.children p := by
  have hbytes : (t.children p).Pairwise fun a b =>
      Pointer.utf8 a.order.toList < Pointer.utf8 b.order.toList := by
    refine (ht.pairwise_children p).imp_of_mem fun {a b} ha hb hab => hab.resolve_right ?_
    rintro ⟨horder, i, j, hi, hj, hij⟩
    obtain ⟨ha, hpa⟩ := ht.mem_children_iff_mem_nodes.1 ha
    obtain ⟨hb, hpb⟩ := ht.mem_children_iff_mem_nodes.1 hb
    have hperm := hs.perm_nodes ht hnode
    have hab : a = b :=
      hkeys a (hperm.mem_iff.2 ha) b (hperm.mem_iff.2 hb) (hpa.trans hpb.symm) horder
    rw [hab, hj] at hi
    cases hi
    exact Nat.lt_irrefl _ hij
  refine hs.children_eq_of_pairwise (hbytes.imp .inl) fun n => ?_
  rw [ht.mem_children_iff, hnode]

end

/-- What stores that batches lead to answer is settled by their nodes, if no two siblings have one
key. -/
theorem Reachable.sameReads {s t : Store} (hs : s.Reachable) (ht : t.Reachable)
    (hnode : ∀ id, s.node? id = t.node? id) (hkeys : s.DistinctKeys) : s.SameReads t where
  node? := hnode
  children := hs.consistent.children_eq_of_distinctKeys ht.consistent hnode hkeys
  size := by
    have hlength := (hs.consistent.perm_nodes ht.consistent hnode).length_eq
    rwa [nodes, nodes, List.length_map, List.length_map] at hlength

/-! ## The same answers -/

namespace SameReads

variable {s t : Store} (h : s.SameReads t)

include h

theorem mem_ids_iff (id : NodeId) : id ∈ s.ids ↔ id ∈ t.ids := by
  have hstored : ∀ u : Store, id ∈ u.ids ↔ (u.node? id).isSome := by
    intro u
    rw [Store.node?, Option.isSome_map, ids, Dict.isSome_get?_iff]
  rw [hstored, hstored, h.node?]

theorem prevSibling? (id : NodeId) : s.prevSibling? id = t.prevSibling? id := by
  simp only [Store.prevSibling?, siblings?, h.node?, h.children]

theorem nextSibling? (id : NodeId) : s.nextSibling? id = t.nextSibling? id := by
  simp only [Store.nextSibling?, siblings?, h.node?, h.children]

/-! ### The way up -/

theorem ancestors (id : NodeId) : s.ancestors id = t.ancestors id := by
  have hmap := map_ancestors (e := fun n => n) (fun id => congrArg _ (h.node? id))
    (fun _ _ => congrArg Node.parent) h.size id
  rwa [List.map_id', List.map_id'] at hmap

theorem namesTo (n : Node) : s.namesTo n = t.namesTo n := by
  rw [Store.namesTo, Store.namesTo, groupNames, groupNames, h.ancestors]

theorem path? (id : NodeId) : s.path? id = t.path? id := by
  simp only [Store.path?, h.node?, h.namesTo]

theorem displayOf (id : NodeId) : s.displayOf id = t.displayOf id := by
  rw [Store.displayOf, Store.displayOf, h.path?]

theorem ownType (n : Node) : s.ownType n = t.ownType n := by
  rw [Store.ownType, Store.ownType, h.ancestors]

/-! ### Lookup -/

theorem sameBelow : s.SameBelow t where
  ids := h.mem_ids_iff
  children id := h.children (some id)
  token? _ := by rw [h.children]
  group? _ := by rw [h.children]

theorem activeContexts (from? : Option NodeId) : s.activeContexts from? = t.activeContexts from? := by
  cases from? with
  | none => rfl
  | some id => simp only [Store.activeContexts, h.node?, h.ancestors]

theorem layers (from? : Option NodeId) : s.layers from? = t.layers from? := by
  simp only [Store.layers, h.activeContexts, h.children, funext (h.sameBelow.containerLayers _ [])]

theorem tokenAt? (dotted : String) (from? : Option NodeId) :
    s.tokenAt? dotted from? = t.tokenAt? dotted from? := by
  simp only [Store.tokenAt?, lookup?, h.layers, h.sameBelow.tokenBelow?]

theorem target (ref : Alias) (holder : NodeId) : s.target ref holder = t.target ref holder := by
  simp only [Store.target, h.tokenAt?, h.node?, h.sameBelow.ownToken?]

/-! ### Resolution -/

theorem tracks : Tracks (fun _ => True) id s t where
  injective _ _ _ _ he := he
  displayOf id _ := (h.displayOf id).symm
  error id e _ he := by
    rw [tokenNode, h.node?] at he
    rwa [tokenNode]
  token id n u _ hn hu := ⟨n, u, (h.node? id).symm.trans hn, hu, rfl, (h.ownType n).symm⟩
  target id n u _ hn hu ref href := by
    cases hm : s.target ref id with
    | error e => exact .inl ⟨e, rfl, (h.target ref id).symm.trans hm⟩
    | ok m => exact .inr ⟨m, m, rfl, (h.target ref id).symm.trans hm, rfl, trivial⟩

theorem resolve (id : NodeId) : s.resolve id = t.resolve id := (h.tracks.resolve trivial).symm

theorem typeOf (id : NodeId) : s.typeOf id = t.typeOf id := (h.tracks.typeOf trivial).symm

theorem closesCircle (hs : s.Consistent) (ht : t.Consistent) (source target : NodeId) :
    s.closesCircle source target = t.closesCircle source target := by
  have hrefers : s.RefersTo = t.RefersTo := by
    funext a b
    simp only [RefersTo, h.node?, h.target]
  rw [Bool.eq_iff_iff, closesCircle_eq_true_iff hs, closesCircle_eq_true_iff ht, hrefers]

/-! ### Writing -/

theorem aliasText : s.aliasText = t.aliasText := by
  funext holder ref
  cases ref with
  | path => rfl
  | id id => simp only [Store.aliasText, h.path?]

/-- The tree below a parent; the induction is on the groups that are not entered yet. -/
theorem forestBelow (visited : List NodeId) (p : Option NodeId) :
    s.forestBelow visited p = t.forestBelow visited p := by
  rw [forestBelow_eq, forestBelow_eq, h.children]
  refine List.filterMap_congr fun n _ => ?_
  rw [branch?, branch?]
  cases n.content with
  | group g =>
    simp only [← h.mem_ids_iff]
    split
    · next hv =>
      have hlt := unvisited_cons_lt hv.1 hv.2
      rw [forestBelow (n.id :: visited) (some n.id)]
    · rfl
  | _ => rfl
termination_by s.unvisited visited

theorem writeBelow (minimal : Bool) (p : Option NodeId) :
    Tree.writeBelow minimal s p = Tree.writeBelow minimal t p := by
  rw [Tree.writeBelow, Tree.writeBelow, forest, forest, h.forestBelow, h.aliasText]

theorem writeContexts (minimal : Bool) (written : Members) (ns : List Node) :
    Resolver.writeContexts minimal s written ns = Resolver.writeContexts minimal t written ns := by
  induction ns generalizing written with
  | nil => rfl
  | cons n ns ih =>
    simp only [Resolver.writeContexts, Resolver.writeSources, h.writeBelow, ih]

theorem writeItem (minimal : Bool) (n : Node) :
    Resolver.writeItem minimal s n = Resolver.writeItem minimal t n := by
  simp only [Resolver.writeItem, Resolver.writeSources, h.writeBelow, h.writeContexts, h.children]

theorem writeResolver (minimal : Bool) (info : Option ResolverInfo) :
    Resolver.write minimal s info = Resolver.write minimal t info := by
  simp only [Resolver.write, Resolver.itemsAtRoot, Resolver.infoAtRoot?, h.children,
    funext (h.writeItem minimal)]

end SameReads

/-- **History does not show.** Let two stores hold the same nodes by id, whatever
batches they were made by, and let no two siblings have one key. Then both give
the same children, in the same order, and the same neighbours of every node;
find the same token at every path, from wherever one looks; resolve every token
to the same result, a value or an error; find the same circles; and are written
as the same documents, or fail to be for the same reason. Their nodes and their
tokens are the same up to the order in which they are listed. -/
theorem history_hidden {s t : Store} (hs : s.Reachable) (ht : t.Reachable)
    (hnode : ∀ id, s.node? id = t.node? id) (hkeys : s.DistinctKeys) :
    (∀ p, s.children p = t.children p) ∧
    (∀ id, s.prevSibling? id = t.prevSibling? id ∧ s.nextSibling? id = t.nextSibling? id) ∧
    (∀ dotted from?, s.tokenAt? dotted from? = t.tokenAt? dotted from?) ∧
    (∀ id, s.resolve id = t.resolve id ∧ s.typeOf id = t.typeOf id) ∧
    (∀ source target, s.closesCircle source target = t.closesCircle source target) ∧
    (∀ minimal, Tree.write minimal s = Tree.write minimal t) ∧
    (∀ minimal info, Resolver.write minimal s info = Resolver.write minimal t info) ∧
    s.nodes.Perm t.nodes ∧ s.tokens.Perm t.tokens := by
  have h := hs.sameReads ht hnode hkeys
  have hperm := hs.consistent.perm_nodes ht.consistent hnode
  exact ⟨h.children, fun id => ⟨h.prevSibling? id, h.nextSibling? id⟩, h.tokenAt?,
    fun id => ⟨h.resolve id, h.typeOf id⟩, h.closesCircle hs.consistent ht.consistent,
    fun minimal => h.writeBelow minimal none, h.writeResolver, hperm, hperm.filter _⟩

/-- A group of three tokens, of which the second refers to the others. -/
def rowNodes : List Node :=
  let token (id order : String) (value : TokenValue) : Node :=
    ⟨⟨id⟩, some ⟨"row"⟩, order, .token ⟨id, .none, some .number, value⟩⟩
  [⟨⟨"row"⟩, none, "a0", .group ⟨"row", .none, none⟩⟩,
    token "first" "a0" (.literal (.number (.integer 1))),
    token "second" "a1" (.aliasTo (.path "row.third")),
    token "third" "a2" (.literal (.number (.integer 3)))]

/-- The tokens are set in another order before there is a group; one of them is deleted and set
again, and another comes from elsewhere with another key. -/
def rowInTurns : Store :=
  let batches : List (List Write) :=
    [[.extend (rowNodes.drop 2)], [.set { rowNodes[1] with parent := none, order := "Zz" }],
      [.delete ⟨"second"⟩, .extend (rowNodes.take 2)], [.set rowNodes[2]]]
  batches.foldl (fun s ws => s.commit (ws.foldl Batch.write .empty)) .empty

/-- The third token was set first, and so it is listed first; nothing else tells the stores apart. -/
theorem history_hidden_row :
    let atOnce := ofNodes rowNodes
    (atOnce.Reachable ∧ rowInTurns.Reachable ∧ (∀ id, atOnce.node? id = rowInTurns.node? id) ∧
      atOnce.DistinctKeys) ∧
    atOnce.nodes.map Node.name = ["row", "first", "second", "third"] ∧
    rowInTurns.nodes.map Node.name = ["third", "first", "row", "second"] ∧
    (rowInTurns.children (some ⟨"row"⟩)).map Node.name = ["first", "second", "third"] ∧
    rowInTurns.resolve ⟨"second"⟩ = .ok ⟨.number, .number (.integer 3)⟩ ∧
    ∀ minimal, Tree.write minimal atOnce = Tree.write minimal rowInTurns := by
  intro atOnce
  have hs : atOnce.Reachable := reachable_ofNodes _
  have ht : rowInTurns.Reachable := .commit _ (.commit _ (.commit _ (.commit _ .empty)))
  have hperm : atOnce.nodes.Perm rowInTurns.nodes := by decide +kernel
  have hnode := hs.consistent.node?_eq_of_perm ht.consistent hperm
  have hkeys : atOnce.DistinctKeys := by decide +kernel
  obtain ⟨hchildren, -, -, hresolve, -, hwrite, -⟩ := history_hidden hs ht hnode hkeys
  refine ⟨⟨hs, ht, hnode, hkeys⟩, by decide +kernel, by decide +kernel, ?_, ?_, hwrite⟩
  · rw [← hchildren]
    decide +kernel
  · rw [← (hresolve ⟨"second"⟩).1]
    decide +kernel

end DesignTokens.Store
