/-
The nodes of a tree, with paths for ids, as a grove. Names that are distinct
among siblings make ids that are distinct throughout, since no two paths of
names have one text.
-/
import DesignTokens.Document.Ids
import DesignTokens.Proofs.Document.Grove
import DesignTokens.Proofs.Document.Tree.Readable

namespace DesignTokens

variable {ι : Type}

mutual

/-- An entry's nodes below the entry to which names lead, and the nodes behind them. -/
def Entry.grove (names : List String) (order : String) (next : Grove) : Entry ι → Grove
  | .token _ t => .node ⟨Pointer.format (names ++ [t.name])⟩ order (.token t) .nil next
  | .group _ g children =>
    .node ⟨Pointer.format (names ++ [g.name])⟩ order (.group g)
      (forestGrove (names ++ [g.name]) children) next

/-- The nodes of siblings below the entry to which names lead. -/
def forestGrove (names : List String) : List (String × Entry ι) → Grove
  | [] => .nil
  | (order, e) :: es => e.grove names order (forestGrove names es)

end

mutual

theorem Entry.map_node_nodes (parent : Option NodeId) (names : List String) (before : Nat)
    (order : String) (next : Grove) : (e : Entry Pointer.Path) →
    (e.grove names order next).nodes parent =
      (e.nodes .path parent names before order).map (·.node) ++ next.nodes parent
  | .token _ t => rfl
  | .group _ g children => by
    rw [Entry.grove, Grove.nodes, Entry.nodes, List.map_cons, List.cons_append,
      map_node_forestNodes _ _ (before + 1) children]
    rfl

/-- The nodes of a forest are those of its grove. -/
theorem map_node_forestNodes (parent : Option NodeId) (names : List String) (before : Nat) :
    (es : List (String × Entry Pointer.Path)) →
    (forestGrove names es).nodes parent =
      (forestNodes .path parent names before es).map (·.node)
  | [] => rfl
  | (order, e) :: es => by
    rw [forestGrove, Entry.map_node_nodes parent names before, forestNodes, List.map_append,
      map_node_forestNodes parent names _ es]

end

/-! ## Ids and keys -/

theorem tops_forestGrove (names : List String) (es : List (String × Entry ι)) :
    (forestGrove names es).tops = es.map fun e => (e.1, e.2.content) := by
  induction es with
  | nil => rfl
  | cons e es ih =>
    obtain ⟨order, e⟩ := e
    cases e <;> simp [forestGrove, Entry.grove, Grove.tops, ih, Entry.content]

theorem Entry.name_content (e : Entry ι) : e.content.name = e.name := by
  cases e <;> rfl

mutual

theorem Entry.pathed_grove {names : List String} {order : String} {next : Grove}
    (hn : next.Pathed names) : (e : Entry ι) → (e.grove names order next).Pathed names
  | .token _ _ => ⟨rfl, trivial, hn⟩
  | .group _ g children => ⟨rfl, pathed_forestGrove (names ++ [g.name]) children, hn⟩

theorem pathed_forestGrove (names : List String) : (es : List (String × Entry ι)) →
    (forestGrove names es).Pathed names
  | [] => trivial
  | (_, e) :: es => Entry.pathed_grove (pathed_forestGrove names es) e

end

mutual

theorem Entry.orderly_grove {names : List String} {order : String} {next : Grove}
    {inherited : Option TokenType} (hn : next.Orderly) : (e : Entry ι) → e.Readable inherited →
    (∀ b ∈ next.tops, e.name ≠ b.2.name ∧ order < b.1) → (e.grove names order next).Orderly
  | .token _ _, _, hb => ⟨hb, trivial, hn⟩
  | .group _ _ children, h, hb => ⟨hb, orderly_forestGrove children h.2, hn⟩

/-- What a reader can have given has distinct names and ascending keys among siblings. -/
theorem orderly_forestGrove {names : List String} {inherited : Option TokenType} :
    (es : List (String × Entry ι)) → ForestReadable inherited es → (forestGrove names es).Orderly
  | [], _ => trivial
  | (order, e) :: es, h => by
    refine Entry.orderly_grove (orderly_forestGrove es h.2.2) e h.1 fun b hb => ?_
    rw [tops_forestGrove] at hb
    obtain ⟨e', he', rfl⟩ := List.mem_map.1 hb
    obtain ⟨hname, -, horder⟩ := h.2.1 e' he'
    exact ⟨e'.2.name_content ▸ hname.symm, horder⟩

end

/-- No two nodes of a tree with distinct names have one id. -/
theorem nodup_ids_forestGrove {names : List String} {inherited : Option TokenType}
    (es : List (String × Entry ι)) (h : ForestReadable inherited es) :
    (forestGrove names es).ids.Nodup :=
  (pathed_forestGrove names es).nodup_ids_of_orderly (orderly_forestGrove es h)

/-- Siblings stand in the order of their keys. -/
theorem keyed_forestGrove {names : List String} {inherited : Option TokenType}
    (es : List (String × Entry ι)) (h : ForestReadable inherited es) :
    (forestGrove names es).Keyed :=
  (orderly_forestGrove es h).keyed

end DesignTokens
