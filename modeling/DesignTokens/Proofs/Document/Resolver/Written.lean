/-
Writing the store of a resolver document. Each item is written as it was read,
with one source for a set or a context (`writeItems_heads`); the items are the
roots, since the reader makes no node for the document itself.
-/
import DesignTokens.Proofs.Document.Resolver.Nodes
import DesignTokens.Proofs.Document.Tree.Written

namespace DesignTokens.Resolver

variable {minimal : Bool} {s : Store}

theorem writeSources_of_within {id : NodeId} {names : List String} {es : Forest Pointer.Path}
    (hg : Grove.Within s (some id) (forestGrove names es))
    (hc : s.children (some id) = (forestGrove names es).heads (some id)) (h : RootReadable es) :
    writeSources minimal s id = .ok (sourcesJson minimal es) := by
  rw [writeSources, writeBelow_of_within hg hc h.forest]
  rfl

/-- The contexts of a modifier go behind what has been written of it. -/
theorem writeContexts_heads {names : List String} {p : Option NodeId} {cs : List Context}
    {written : Members} (hg : Grove.Within s p (contextsGrove names cs)) (h : ContextsReadable cs)
    (hw : ∀ c ∈ cs, c.name ∉ Dict.keys written) :
    writeContexts minimal s written ((contextsGrove names cs).heads p) =
      .ok (written ++ contextMembers minimal cs) := by
  induction cs generalizing written with
  | nil =>
    rw [contextMembers, List.map_nil, List.append_nil]
    rfl
  | cons c cs ih =>
    have hsources : writeSources minimal s ⟨Pointer.format (names ++ [c.name])⟩ =
        .ok (sourcesJson minimal c.entries) :=
      writeSources_of_within hg.of_below hg.children_eq (h.entries c (List.mem_cons_self ..))
    have hrest : ∀ c' ∈ cs, c'.name ∉
        Dict.keys (written ++ [(c.name, sourcesJson minimal c.entries)]) := by
      intro c' hc' hk
      rw [Dict.keys, List.map_append, List.mem_append, List.map_singleton, List.mem_singleton] at hk
      rcases hk with hk | he
      · exact hw c' (List.mem_cons_of_mem _ hc') hk
      · exact (List.nodup_cons.1 h.names).1 (List.mem_map.2 ⟨c', hc', he⟩)
    have hcs := ih hg.of_next h.tail hrest
    rw [← Dict.insert_of_notMem (hw c (List.mem_cons_self ..))] at hcs
    rw [contextsGrove, Grove.heads, writeContexts]
    show (writeSources minimal s ⟨Pointer.format (names ++ [c.name])⟩ >>= fun sources =>
      writeContexts minimal s (Dict.insert written c.name sources) _) = _
    rw [hsources]
    show writeContexts minimal s (Dict.insert written c.name _) _ = _
    rw [hcs, contextMembers, contextMembers, List.map_cons,
      Dict.insert_of_notMem (hw c (List.mem_cons_self ..)), List.append_assoc, List.singleton_append]

/-- Every item is written as it was read. -/
theorem writeItems_heads {p : Option NodeId} {items : List Item}
    (hg : Grove.Within s p (itemsGrove items)) (h : ItemsReadable items) :
    ((itemsGrove items).heads p).mapM (writeItem minimal s) =
      .ok (items.map (Item.toJson minimal)) := by
  induction items with
  | nil => rfl
  | cons item items ih =>
    have hitem := h.each item (List.mem_cons_self ..)
    cases item with
    | set order place tokens entries =>
      have hsources : writeSources minimal s ⟨Pointer.format [tokens.name]⟩ =
          .ok (sourcesJson minimal entries) :=
        writeSources_of_within hg.of_below hg.children_eq hitem
      rw [itemsGrove, Item.grove, Grove.heads, List.mapM_cons, ih hg.of_next h.tail, writeItem]
      simp only [hsources]
      rfl
    | modifier order place choice contexts =>
      have hcontexts : writeContexts minimal s []
          (s.children (some ⟨Pointer.format [choice.name]⟩)) =
          .ok (contextMembers minimal contexts) := by
        rw [hg.children_eq]
        exact writeContexts_heads hg.of_below hitem.1 fun _ _ => List.not_mem_nil
      rw [itemsGrove, Item.grove, Grove.heads, List.mapM_cons, ih hg.of_next h.tail, writeItem]
      simp only [hcontexts]
      rfl

/-- Where the roots are items, no resolver is among them that would be opened up. -/
theorem itemsAtRoot_of_roots {items : List Item}
    (h : s.children none = (itemsGrove items).heads none) :
    itemsAtRoot s = (itemsGrove items).heads none := by
  rw [itemsAtRoot, h]
  clear h
  induction items with
  | nil => rfl
  | cons item items ih =>
    cases item <;> rw [itemsGrove, Item.grove, Grove.heads, List.flatMap_cons, ih] <;> rfl

/-- The nodes of items that can be read are written as a document of these items. -/
theorem write_ofNodes_itemsGrove (minimal : Bool) (info : ResolverInfo) {items : List Item}
    (h : ItemsReadable items) :
    write minimal (Store.ofNodes ((itemsGrove items).nodes none)) (some info) =
      .ok (documentJson minimal info items) := by
  have hn := nodup_ids_itemsGrove h
  have hk := keyed_itemsGrove h
  rw [write, itemsAtRoot_of_roots (Grove.roots_ofNodes hn hk),
    writeItems_heads (Grove.within_ofNodes hn hk) h]
  rfl

end DesignTokens.Resolver
