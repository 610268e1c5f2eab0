/-
What stays of a document that is read, written with minimal types and read once
more (`Output.Preserved`): the nodes in their sequence, the order of siblings,
and what every token resolves to. Order keys may be others, and a declared type
is gone where the same type comes down from above. Where the nodes are those of
two groves, it is enough that the groves differ in nothing else
(`Grove.preserved`).
-/
import DesignTokens.Document.Output
import DesignTokens.Proofs.Document.Inheritance

namespace DesignTokens

/-- The nodes of an output come back, but for keys and for types that come down anyway. -/
structure Output.Preserved (before after : Output) : Prop where
  /-- The same nodes in the same sequence. -/
  nodes : after.nodes.map Node.unkeyed = before.nodes.map fun n =>
    (n.written true ((Store.ofNodes before.nodes).inheritedType n)).unkeyed
  /-- The same siblings in the same order. -/
  siblings : ∀ p, ((Store.ofNodes after.nodes).children p).map Node.id =
    ((Store.ofNodes before.nodes).children p).map Node.id
  /-- The same result, a value or an error, for every token. -/
  resolve : ∀ id, (Store.ofNodes after.nodes).resolve id = (Store.ofNodes before.nodes).resolve id

namespace Grove

variable {g g' : Grove} (hn : g.ids.Nodup) (hn' : g'.ids.Nodup)

include hn hn'

theorem map_unkeyed_nodes {minimal : Bool}
    (h : WrittenAs minimal (g.typed none none) (g'.typed none none)) :
    (g'.nodes none).map Node.unkeyed = (g.nodes none).map fun n =>
      (n.written minimal ((Store.ofNodes (g.nodes none)).inheritedType n)).unkeyed := by
  have hfst := congrArg (List.map Prod.fst) h
  rw [typed_ofNodes hn, typed_ofNodes hn'] at hfst
  simpa only [List.map_map, Function.comp_def] using hfst

/-- Two outputs whose nodes are those of groves that differ only so. -/
theorem preserved (hk : g.Keyed) (hk' : g'.Keyed)
    (h : WrittenAs true (g.typed none none) (g'.typed none none)) (issues issues' : List Issue) :
    Output.Preserved ⟨g.nodes none, issues⟩ ⟨g'.nodes none, issues'⟩ := by
  have ha := alike hn hn' hk hk' h
  exact ⟨map_unkeyed_nodes hn hn' h, fun p => (map_of_map_eq (ha.children p) fun _ _ => Node.id_eq_of_bare).symm,
    fun id => (ha.resolve id).symm⟩

end Grove

/-! ## Issues -/

/-- Each issue is about a token that does not resolve, and lies at the value of it. -/
def Output.OnlyUnresolved (o : Output) : Prop :=
  ∀ i ∈ o.issues, ∃ n ∈ o.nodes, n.isToken ∧ ∃ e place,
    (Store.ofNodes o.nodes).resolve n.id = .error e ∧ n.id = ⟨Pointer.format place⟩ ∧
    i = ⟨place ++ [Key.value], .unresolved e⟩

theorem onlyUnresolved_referenceIssues {placed : List Placed}
    (h : ∀ p ∈ placed, p.node.id = ⟨Pointer.format p.place⟩) :
    Output.OnlyUnresolved ⟨placed.map (·.node), referenceIssues placed⟩ := by
  intro i hi
  obtain ⟨p, hp, hi⟩ := List.mem_filterMap.1 hi
  unfold referenceIssue? at hi
  split at hi
  · cases hi
  · next t ht =>
    split at hi
    · cases hi
    · split at hi
      · cases hi
      · next e he =>
        refine ⟨p.node, List.mem_map_of_mem hp, ?_, e, p.place, he, h p hp,
          (Option.some.inj hi).symm⟩
        rw [Node.isToken, ht]
        rfl

/-- There is an issue for each token that holds a reference and does not resolve, and no other. -/
theorem referenceIssues_eq_nil_iff {placed : List Placed} : referenceIssues placed = [] ↔
    ∀ n ∈ placed.map (·.node), ∀ t, n.token? = some t → t.value.aliases.isEmpty = false →
      ∃ r, (Store.ofNodes (placed.map (·.node))).resolve n.id = .ok r := by
  simp only [referenceIssues, List.filterMap_eq_nil_iff, List.forall_mem_map]
  refine forall₂_congr fun p _ => ⟨fun h t ht ha => ?_, fun h => ?_⟩
  · simp only [referenceIssue?, ht, ha, if_neg Bool.false_ne_true] at h
    cases hr : (Store.ofNodes (placed.map (·.node))).resolve p.node.id with
    | ok r => exact ⟨r, rfl⟩
    | error e =>
      rw [hr] at h
      cases h
  · unfold referenceIssue?
    split
    · rfl
    · next t ht =>
      split
      · rfl
      · next ha =>
        obtain ⟨r, hr⟩ := h t ht (by simpa using ha)
        rw [hr]

namespace Output.Preserved

theorem map_bare {before after : Output} (h : before.Preserved after) :
    before.nodes.map Node.bare = after.nodes.map Node.bare := by
  have hb := congrArg (List.map Node.bare) h.nodes
  simp only [List.map_map, Function.comp_def, Node.bare_unkeyed, Node.bare_written] at hb
  exact hb.symm

/-- Where every reference led somewhere, every reference still does. -/
theorem referenceIssues_eq_nil {placed placed' : List Placed} {issues issues' : List Issue}
    (h : Output.Preserved ⟨placed.map (·.node), issues⟩ ⟨placed'.map (·.node), issues'⟩)
    (hclean : referenceIssues placed = []) : referenceIssues placed' = [] := by
  rw [referenceIssues_eq_nil_iff] at hclean ⊢
  intro m hm t ht ha
  have hmem : m.bare ∈ (placed.map (·.node)).map Node.bare := by
    rw [h.map_bare]
    exact List.mem_map_of_mem hm
  obtain ⟨n, hn, hb⟩ := List.mem_map.1 hmem
  obtain ⟨u, hu, hv⟩ := Node.token_of_bare hb.symm (Store.token?_eq_some_iff.1 ht)
  obtain ⟨r, hr⟩ := hclean n hn u (Store.token?_eq_some_iff.2 hu) (by rw [hv, ha])
  refine ⟨r, (h.resolve m.id).trans ?_⟩
  rw [← Node.id_eq_of_bare hb]
  exact hr

end Output.Preserved

end DesignTokens
