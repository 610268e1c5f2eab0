/-
The nodes of a resolver document, with paths for ids, as a grove: items at the
top, contexts below modifiers, and the trees of sets and contexts below these.
-/
import DesignTokens.Proofs.Document.Resolver.Readable
import DesignTokens.Proofs.Document.Tree.Nodes

namespace DesignTokens.Resolver

/-- The nodes of contexts below the modifier to which names lead. -/
def contextsGrove (names : List String) : List Context → Grove
  | [] => .nil
  | c :: cs => .node ⟨Pointer.format (names ++ [c.name])⟩ c.order (.context c.name)
      (forestGrove (names ++ [c.name]) c.entries) (contextsGrove names cs)

/-- An item's nodes, and the nodes behind them. -/
def Item.grove (next : Grove) : Item → Grove
  | .set order _ tokens entries => .node ⟨Pointer.format [tokens.name]⟩ order (.set tokens)
      (forestGrove [tokens.name] entries) next
  | .modifier order _ choice contexts =>
    .node ⟨Pointer.format [choice.name]⟩ order (.modifier choice)
      (contextsGrove [choice.name] contexts) next

/-- The nodes of items. -/
def itemsGrove : List Item → Grove
  | [] => .nil
  | item :: items => item.grove (itemsGrove items)

theorem map_node_contextNodes (modifier : NodeId) (names : List String) (before : Nat)
    (cs : List Context) : (contextsGrove names cs).nodes (some modifier) =
      (contextNodes .path modifier names before cs).map (·.node) := by
  induction cs generalizing before with
  | nil => rfl
  | cons c cs ih =>
    rw [contextsGrove, Grove.nodes, contextNodes, List.cons_append, List.map_cons, List.map_append,
      ← ih, map_node_forestNodes _ _ (before + 1)]
    rfl

/-- The nodes of items are those of their grove. -/
theorem map_node_itemNodes (before : Nat) (items : List Item) :
    (itemsGrove items).nodes none = (itemNodes .path before items).map (·.node) := by
  induction items generalizing before with
  | nil => rfl
  | cons item items ih =>
    rw [itemNodes, List.map_append, ← ih]
    cases item with
    | set order place tokens entries =>
      rw [itemsGrove, Item.grove, Grove.nodes, Item.nodes, List.map_cons,
        map_node_forestNodes _ _ (before + 1)]
      rfl
    | modifier order place choice contexts =>
      rw [itemsGrove, Item.grove, Grove.nodes, Item.nodes, List.map_cons,
        map_node_contextNodes _ _ (before + 1)]
      rfl

/-! ## Ids and keys -/

theorem tops_contextsGrove (names : List String) (cs : List Context) :
    (contextsGrove names cs).tops = cs.map fun c => (c.order, .context c.name) := by
  induction cs with
  | nil => rfl
  | cons c cs ih => rw [contextsGrove, Grove.tops, ih, List.map_cons]

theorem tops_itemsGrove (items : List Item) :
    (itemsGrove items).tops = items.map fun item => (item.order, item.content) := by
  induction items with
  | nil => rfl
  | cons item items ih => cases item <;> rw [itemsGrove, Item.grove, Grove.tops, ih] <;> rfl

theorem pathed_contextsGrove (names : List String) (cs : List Context) :
    (contextsGrove names cs).Pathed names := by
  induction cs with
  | nil => trivial
  | cons c cs ih => exact ⟨rfl, pathed_forestGrove (names ++ [c.name]) c.entries, ih⟩

theorem pathed_itemsGrove (items : List Item) : (itemsGrove items).Pathed [] := by
  induction items with
  | nil => trivial
  | cons item items ih =>
    cases item with
    | set order place tokens entries => exact ⟨rfl, pathed_forestGrove [tokens.name] entries, ih⟩
    | modifier order place choice contexts =>
      exact ⟨rfl, pathed_contextsGrove [choice.name] contexts, ih⟩

theorem orderly_contextsGrove (names : List String) {cs : List Context}
    (h : ContextsReadable cs) : (contextsGrove names cs).Orderly := by
  induction cs with
  | nil => trivial
  | cons c cs ih =>
    refine ⟨fun b hb => ?_, orderly_forestGrove c.entries (h.entries c (.head _)).forest, ih h.tail⟩
    rw [tops_contextsGrove] at hb
    obtain ⟨c', hc', rfl⟩ := List.mem_map.1 hb
    have hname : c.name ≠ c'.name := fun he =>
      (List.nodup_cons.1 h.names).1 (List.mem_map.2 ⟨c', hc', he.symm⟩)
    exact ⟨hname, (List.pairwise_cons.1 h.orders).1 _ (List.mem_map_of_mem hc')⟩

/-- Items, contexts and entries have distinct names and ascending keys among siblings. -/
theorem orderly_itemsGrove {items : List Item} (h : ItemsSound items) :
    (itemsGrove items).Orderly := by
  induction items with
  | nil => trivial
  | cons item items ih =>
    have hfirst : ∀ b ∈ (itemsGrove items).tops,
        item.content.name ≠ b.2.name ∧ item.order < b.1 := by
      intro b hb
      rw [tops_itemsGrove] at hb
      obtain ⟨item', hi', rfl⟩ := List.mem_map.1 hb
      rw [item.name_content, item'.name_content]
      exact ⟨fun he => (List.nodup_cons.1 h.names).1 (List.mem_map.2 ⟨item', hi', he.symm⟩),
        (List.pairwise_cons.1 h.orders).1 _ (List.mem_map_of_mem hi')⟩
    have hitem := h.each item (.head _)
    cases item with
    | set order place tokens entries =>
      exact ⟨hfirst, orderly_forestGrove entries hitem.forest, ih h.tail⟩
    | modifier order place choice contexts =>
      exact ⟨hfirst, orderly_contextsGrove _ hitem, ih h.tail⟩

/-- No two nodes of a resolver document have one id. -/
theorem nodup_ids_itemsGrove {items : List Item} (h : ItemsReadable items) :
    (itemsGrove items).ids.Nodup :=
  (pathed_itemsGrove items).nodup_ids_of_orderly (orderly_itemsGrove h.sound)

/-- Items, contexts and entries stand in the order of their keys. -/
theorem keyed_itemsGrove {items : List Item} (h : ItemsReadable items) :
    (itemsGrove items).Keyed :=
  (orderly_itemsGrove h.sound).keyed

end DesignTokens.Resolver
