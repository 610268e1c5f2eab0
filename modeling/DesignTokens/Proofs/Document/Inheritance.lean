/-
Types that come down. In a grove each node is below groups that pass a type
down to it (`Grove.typed`); in the store of the grove this is the type that its
ancestors give it (`Grove.typed_eq_map`). Writing a document leaves out the
types that come down anyway and reading it gives new keys; two groves that
differ in nothing else have stores that are alike (`Grove.alike`).
-/
import DesignTokens.Proofs.Document.Grove
import DesignTokens.Proofs.Document.Tree.Readable
import DesignTokens.Proofs.Resolution.Alike
import DesignTokens.Proofs.Resolution.OwnType

namespace DesignTokens

namespace Content

/-- Content with the declared type that is written below groups that pass down a type. -/
def written (minimal : Bool) (inherited : Option TokenType) : Content → Content
  | token t => token { t with declaredType := Tree.writtenType minimal t.declaredType inherited }
  | group g => group { g with declaredType := Tree.writtenType minimal g.declaredType inherited }
  | c => c

end Content

namespace Node

/-- A node with the declared type that is written. -/
def written (minimal : Bool) (inherited : Option TokenType) (n : Node) : Node :=
  { n with content := n.content.written minimal inherited }

/-- A node without its order key. -/
def unkeyed (n : Node) : Node := { n with order := "" }

end Node

/-! ## Ancestors -/

namespace Grove

/-- The nodes in reading order, each with the type that comes down to it. -/
def typed (parent : Option NodeId) (inherited : Option TokenType) :
    Grove → List (Node × Option TokenType)
  | nil => []
  | node id order content below next =>
    (⟨id, parent, order, content⟩, inherited)
      :: (below.typed (some id) (content.passed inherited) ++ next.typed parent inherited)

/-- `above` is the chain of parents, which the store goes up to its end. -/
theorem typed_eq_map {s : Store} {g : Grove} {p : Option NodeId} {i : Option TokenType}
    (above : List Node) (hs : ∀ n ∈ g.nodes p, s.node? n.id = some n)
    (ha : ∀ k, above.length ≤ k → s.chainUp k p = above)
    (hi : (above.filter Node.isGroup).findSome? (fun a => a.content.declaredType) = i)
    (hl : above.length + g.ids.length ≤ s.size) :
    g.typed p i = (g.nodes p).map fun n => (n, s.inheritedType n) := by
  induction g generalizing p i above with
  | nil => rfl
  | node id o c below next ihb ihn =>
    simp only [ids, List.length_cons, List.length_append] at hl
    have hn : s.node? id = some ⟨id, p, o, c⟩ := hs ⟨id, p, o, c⟩ (List.mem_cons_self ..)
    have hown : s.inheritedType ⟨id, p, o, c⟩ = i := by
      simp only [Store.inheritedType, Store.ancestors, hn]
      rw [ha _ (by omega), hi]
    have hbelow : below.typed (some id) (c.passed i) =
        (below.nodes (some id)).map fun n => (n, s.inheritedType n) := by
      refine ihb (⟨id, p, o, c⟩ :: above)
        (fun n hn => hs n (List.mem_cons_of_mem _ (List.mem_append_left _ hn))) (fun k hk => ?_) ?_ ?_
      · cases k with
        | zero => cases hk
        | succ k =>
          simp only [Store.chainUp, hn]
          rw [ha k (Nat.le_of_succ_le_succ hk)]
      · rw [Node.findSome?_passed, hi]
      · rw [List.length_cons]
        omega
    have hnext : next.typed p i = (next.nodes p).map fun n => (n, s.inheritedType n) :=
      ihn above (fun n hn => hs n (List.mem_cons_of_mem _ (List.mem_append_right _ hn))) ha hi (by omega)
    rw [typed, nodes, hbelow, hnext, List.map_cons, List.map_append, hown]

end Grove

/-! ## Groves that are alike -/

namespace Node

@[simp] theorem id_unkeyed (n : Node) : n.unkeyed.id = n.id := rfl

@[simp] theorem content_unkeyed (n : Node) : n.unkeyed.content = n.content := rfl

@[simp] theorem id_written (minimal : Bool) (inherited : Option TokenType) (n : Node) :
    (n.written minimal inherited).id = n.id := rfl

@[simp] theorem bare_unkeyed (n : Node) : n.unkeyed.bare = n.bare := rfl

@[simp] theorem bare_written (minimal : Bool) (inherited : Option TokenType) (n : Node) :
    (n.written minimal inherited).bare = n.bare := by
  obtain ⟨_, _, _, c⟩ := n
  cases c <;> rfl

theorem declaredType_written_or (minimal : Bool) (inherited : Option TokenType) (n : Node) :
    (n.written minimal inherited).content.declaredType.or inherited =
      n.content.declaredType.or inherited := by
  obtain ⟨_, _, _, c⟩ := n
  cases c with
  | token t => exact writtenType_or minimal t.declaredType inherited
  | group g => exact writtenType_or minimal g.declaredType inherited
  | _ => rfl

end Node

/-- Nodes with the types that come down to them, and the same nodes as they come back. -/
def WrittenAs (minimal : Bool) (ns ms : List (Node × Option TokenType)) : Prop :=
  (ms.map fun m => (m.1.unkeyed, m.2)) = ns.map fun n => ((n.1.written minimal n.2).unkeyed, n.2)

namespace WrittenAs

variable {minimal : Bool} {ns ms ns' ms' : List (Node × Option TokenType)}

theorem append (h : WrittenAs minimal ns ms) (h' : WrittenAs minimal ns' ms') :
    WrittenAs minimal (ns ++ ns') (ms ++ ms') := by
  rw [WrittenAs, List.map_append, List.map_append, h, h']

theorem cons {n m : Node} {i : Option TokenType} (hnm : m.unkeyed = (n.written minimal i).unkeyed)
    (h : WrittenAs minimal ns ms) : WrittenAs minimal ((n, i) :: ns) ((m, i) :: ms) := by
  rw [WrittenAs, List.map_cons, List.map_cons, hnm, h]

variable (h : WrittenAs minimal ns ms)

include h

theorem map_bare : (ns.map fun n => n.1.bare) = ms.map fun m => m.1.bare := by
  have hb := congrArg (List.map fun x : Node × Option TokenType => x.1.bare) h
  simp only [List.map_map, Function.comp_def, Node.bare_unkeyed, Node.bare_written] at hb
  exact hb.symm

theorem map_type : (ns.map fun n => (n.1.id, n.1.content.declaredType.or n.2)) =
    ms.map fun m => (m.1.id, m.1.content.declaredType.or m.2) := by
  have ht := congrArg
    (List.map fun x : Node × Option TokenType => (x.1.id, x.1.content.declaredType.or x.2)) h
  simp only [List.map_map, Function.comp_def, Node.id_unkeyed, Node.content_unkeyed,
    Node.id_written, Node.declaredType_written_or] at ht
  exact ht.symm

end WrittenAs

namespace Store

theorem node?_ofNodes {ns : List Node} (h : (ns.map Node.id).Nodup) (id : NodeId) :
    (ofNodes ns).node? id = ns.find? fun n => n.id = id := by
  have hc := (reachable_ofNodes ns).consistent
  have hns := nodes_ofNodes h
  cases hf : ns.find? fun n => n.id = id with
  | none =>
    rw [Option.eq_none_iff_forall_ne_some]
    intro n hn
    obtain ⟨hmem, hid⟩ := hc.node?_eq_some_iff.1 hn
    rw [hns] at hmem
    exact absurd hid (by simpa using List.find?_eq_none.1 hf n hmem)
  | some n =>
    have hid : n.id = id := by simpa using List.find?_some hf
    rw [hc.node?_eq_some_iff, hns]
    exact ⟨List.mem_of_find?_eq_some hf, hid⟩

/-- Lists of nodes that are the same when bare, with the same types, make stores that are alike. -/
theorem alike_ofNodes {ns ms : List Node} (hn : Kept ns) (hm : Kept ms)
    (hb : ns.map Node.bare = ms.map Node.bare)
    (ht : (ns.map fun n => (n.id, (ofNodes ns).ownType n)) =
      ms.map fun m => (m.id, (ofNodes ms).ownType m)) : (ofNodes ns).Alike (ofNodes ms) where
  ids := by
    rw [← (reachable_ofNodes ns).consistent.map_id_nodes,
      ← (reachable_ofNodes ms).consistent.map_id_nodes, nodes_ofNodes hn.nodup,
      nodes_ofNodes hm.nodup]
    exact map_of_map_eq hb fun _ _ => Node.id_eq_of_bare
  node id := by
    rw [node?_ofNodes hn.nodup, node?_ofNodes hm.nodup]
    exact find?_of_map_eq hb fun n m h => by rw [Node.id_eq_of_bare h]
  children p := by
    rw [children_ofNodes hn, children_ofNodes hm]
    exact filter_of_map_eq hb fun n m h => by rw [Node.parent_eq_of_outline (Node.outline_eq_of_bare h)]
  type id n m hns hms := by
    obtain ⟨hn', hid⟩ := (reachable_ofNodes ns).consistent.node?_eq_some_iff.1 hns
    obtain ⟨hm', hid'⟩ := (reachable_ofNodes ms).consistent.node?_eq_some_iff.1 hms
    rw [nodes_ofNodes hn.nodup] at hn'
    rw [nodes_ofNodes hm.nodup] at hm'
    have hmem : (n.id, (ofNodes ns).ownType n) ∈ ms.map fun m => (m.id, (ofNodes ms).ownType m) :=
      ht ▸ List.mem_map_of_mem hn'
    obtain ⟨m', hmem, he⟩ := List.mem_map.1 hmem
    have hmm : m' = m := by
      refine List.inj_on_of_nodup_map hm.nodup hmem hm' ?_
      rw [(Prod.mk.inj he).1, hid, hid']
    rw [← hmm]
    exact (Prod.mk.inj he).2.symm

end Store

namespace Grove

section

variable {g : Grove} (hn : g.ids.Nodup)

include hn

theorem nodup_nodes : ((g.nodes none).map Node.id).Nodup := by rwa [map_id_nodes]

theorem size_ofNodes : (Store.ofNodes (g.nodes none)).size = g.ids.length := by
  have hns := Store.nodes_ofNodes (nodup_nodes hn)
  have hl := congrArg List.length hns
  rw [Store.nodes, List.length_map] at hl
  rw [Store.size, hl, ← map_id_nodes g none, List.length_map]

/-- In the store of a grove the type that comes down to a node is that of its ancestors. -/
theorem typed_ofNodes : g.typed none none =
    (g.nodes none).map fun n => (n, (Store.ofNodes (g.nodes none)).inheritedType n) := by
  have hns := Store.nodes_ofNodes (nodup_nodes hn)
  refine typed_eq_map [] (fun n hmem => ?_) (fun k _ => ?_) rfl ?_
  · rw [(Store.reachable_ofNodes _).consistent.node?_eq_some_iff, hns]
    exact ⟨hmem, rfl⟩
  · cases k <;> rfl
  · rw [size_ofNodes hn]
    simp

end

/-- Groves that differ in keys and in types that come down anyway have stores that are alike. -/
theorem alike {minimal : Bool} {g g' : Grove} (hn : g.ids.Nodup) (hn' : g'.ids.Nodup)
    (hk : g.Keyed) (hk' : g'.Keyed)
    (h : WrittenAs minimal (g.typed none none) (g'.typed none none)) :
    (Store.ofNodes (g.nodes none)).Alike (Store.ofNodes (g'.nodes none)) := by
  have hb := h.map_bare
  have ht := h.map_type
  rw [typed_ofNodes hn, typed_ofNodes hn', List.map_map, List.map_map] at hb ht
  exact Store.alike_ofNodes (kept_nodes (apart_none hn) hk) (kept_nodes (apart_none hn') hk') hb ht

end Grove

end DesignTokens
