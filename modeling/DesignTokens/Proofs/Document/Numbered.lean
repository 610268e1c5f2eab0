/-
Groves with numbers for ids. Numbering the nodes in reading order changes
nothing but ids and makes these distinct, and the nodes of a document with
sequential ids are those of the numbered grove. So whatever holds of the
contents of a grove, each with the type that comes down to it (`Grove.contents`),
holds of the nodes of a document under either scheme.
-/
import DesignTokens.Proofs.Document.Inheritance
import DesignTokens.Proofs.Document.Resolver.Nodes

namespace DesignTokens

namespace Grove

/-- The number of nodes. -/
def size : Grove → Nat
  | nil => 0
  | node _ _ _ below next => 1 + below.size + next.size

/-- The nodes with numbers for ids behind a text, so many nodes coming before them. -/
def numbered (start : String) (before : Nat) : Grove → Grove
  | nil => nil
  | node _ order content below next =>
    node ⟨start ++ toString (before + 1)⟩ order content (below.numbered start (before + 1))
      (next.numbered start (before + 1 + below.size))

/-- The grove with the ids of a scheme; paths are what it has. -/
def scheduled : IdScheme → Grove → Grove
  | .path, g => g
  | .sequential start, g => g.numbered start 0

/-- The contents in reading order, each with the type that comes down to it. -/
def contents (inherited : Option TokenType) : Grove → List (Content × Option TokenType)
  | nil => []
  | node _ _ content below next =>
    (content, inherited)
      :: (below.contents (content.passed inherited) ++ next.contents inherited)

theorem length_nodes (g : Grove) (p : Option NodeId) : (g.nodes p).length = g.size := by
  induction g generalizing p with
  | nil => rfl
  | node id o c below next ihb ihn =>
    rw [nodes, size, List.length_cons, List.length_append, ihb, ihn]
    omega

theorem size_numbered (start : String) (before : Nat) (g : Grove) :
    (g.numbered start before).size = g.size := by
  induction g generalizing before with
  | nil => rfl
  | node id o c below next ihb ihn => rw [numbered, size, size, ihb, ihn]

theorem map_content_typed (p : Option NodeId) (i : Option TokenType) (g : Grove) :
    (g.typed p i).map (fun x => (x.1.content, x.2)) = g.contents i := by
  induction g generalizing p i with
  | nil => rfl
  | node id o c below next ihb ihn =>
    rw [typed, contents, List.map_cons, List.map_append, ihb, ihn]

theorem contents_numbered (start : String) (before : Nat) (i : Option TokenType) (g : Grove) :
    (g.numbered start before).contents i = g.contents i := by
  induction g generalizing before i with
  | nil => rfl
  | node id o c below next ihb ihn => rw [numbered, contents, contents, ihb, ihn]

theorem contents_scheduled (scheme : IdScheme) (i : Option TokenType) (g : Grove) :
    (g.scheduled scheme).contents i = g.contents i := by
  cases scheme with
  | path => rfl
  | sequential start => exact contents_numbered start 0 i g

theorem tops_numbered (start : String) (before : Nat) (g : Grove) :
    (g.numbered start before).tops = g.tops := by
  induction g generalizing before with
  | nil => rfl
  | node id o c below next ihb ihn => rw [numbered, tops, tops, ihn]

theorem Siblings.numbered {R : String × Content → String × Content → Prop} {g : Grove}
    (h : g.Siblings R) (start : String) (before : Nat) : (g.numbered start before).Siblings R := by
  induction g generalizing before with
  | nil => trivial
  | node id o c below next ihb ihn =>
    obtain ⟨hfirst, hbelow, hnext⟩ := h
    refine ⟨?_, ihb hbelow _, ihn hnext _⟩
    rwa [tops_numbered]

/-! ## Ids -/

theorem ids_numbered (start : String) (before : Nat) (g : Grove) :
    (g.numbered start before).ids =
      (List.range' before g.size).map fun k => ⟨start ++ toString (k + 1)⟩ := by
  induction g generalizing before with
  | nil => rfl
  | node id o c below next ihb ihn =>
    have hsplit : List.range' before (1 + below.size + next.size) =
        before :: (List.range' (before + 1) below.size ++
          List.range' (before + 1 + below.size) next.size) := by
      rw [Nat.add_assoc, Nat.add_comm 1, List.range'_succ, List.range'_append_1]
    rw [numbered, ids, size, ihb, ihn, hsplit, List.map_cons, List.map_append]

theorem toString_nat_injective {j k : Nat} (h : toString j = toString k) : j = k := by
  have htext : String.ofList (Nat.toDigits 10 j) = String.ofList (Nat.toDigits 10 k) := by
    rw [← Nat.repr_eq_ofList_toDigits, ← Nat.repr_eq_ofList_toDigits]
    exact h
  rw [← Nat.ofDigitChars_ten_toDigits (n := j), String.ofList_injective htext,
    Nat.ofDigitChars_ten_toDigits]

/-- Numbers make distinct ids. -/
theorem nodup_ids_numbered (start : String) (before : Nat) (g : Grove) :
    (g.numbered start before).ids.Nodup := by
  rw [ids_numbered]
  refine (List.nodup_range' ..).map fun j k he => ?_
  have htext : start ++ toString (j + 1) = start ++ toString (k + 1) := congrArg NodeId.text he
  have hnumber : toString (j + 1) = toString (k + 1) := by simpa using htext
  exact Nat.succ.inj (toString_nat_injective hnumber)

theorem nodup_ids_scheduled (scheme : IdScheme) {g : Grove} (hn : g.ids.Nodup) :
    (g.scheduled scheme).ids.Nodup := by
  cases scheme with
  | path => exact hn
  | sequential start => exact nodup_ids_numbered start 0 g

end Grove

/-! ## Trees -/

section

variable (start : String)

mutual

theorem Entry.nodes_numbered_grove (parent : Option NodeId) (names : List String) (before : Nat)
    (order : String) (next : Grove) : (e : Entry Pointer.Path) →
    ((e.grove names order next).numbered start before).nodes parent =
      (e.nodes (.sequential start) parent names before order).map (·.node) ++
        (next.numbered start
          (before + (e.nodes (.sequential start) parent names before order).length)).nodes parent
  | .token _ t => rfl
  | .group _ g children => by
    have hbelow := nodes_numbered_forestGrove
      (some ⟨start ++ toString (before + 1)⟩) (names ++ [g.name]) (before + 1) children
    have hsize := congrArg List.length hbelow
    rw [Grove.length_nodes, Grove.size_numbered, List.length_map] at hsize
    rw [Entry.grove, Grove.numbered, Grove.nodes, hbelow, hsize, Entry.nodes, List.map_cons,
      List.cons_append, List.length_cons, Nat.add_assoc, Nat.add_comm 1]
    rfl

/-- With sequential ids the nodes of a forest are those of its numbered grove. -/
theorem nodes_numbered_forestGrove (parent : Option NodeId) (names : List String) (before : Nat) :
    (es : List (String × Entry Pointer.Path)) →
    ((forestGrove names es).numbered start before).nodes parent =
      (forestNodes (.sequential start) parent names before es).map (·.node)
  | [] => rfl
  | (order, e) :: es => by
    rw [forestGrove, Entry.nodes_numbered_grove, forestNodes, List.map_append,
      nodes_numbered_forestGrove]

end

theorem length_forestNodes_numbered (parent : Option NodeId) (names : List String) (before : Nat)
    (es : List (String × Entry Pointer.Path)) : (forestGrove names es).size =
      (forestNodes (.sequential start) parent names before es).length := by
  have hlength := congrArg List.length (nodes_numbered_forestGrove start parent names before es)
  rwa [Grove.length_nodes, Grove.size_numbered, List.length_map] at hlength

end

/-- Under either scheme the nodes of a tree are those of a grove. -/
theorem nodes_scheduled_forestGrove (scheme : IdScheme) (es : List (String × Entry Pointer.Path)) :
    ((forestGrove [] es).scheduled scheme).nodes none =
      (forestNodes scheme none [] 0 es).map (·.node) := by
  cases scheme with
  | path => exact map_node_forestNodes none [] 0 es
  | sequential start => exact nodes_numbered_forestGrove start none [] 0 es

/-! ## Resolver documents -/

namespace Resolver

variable (start : String)

theorem nodes_numbered_contextsGrove (modifier : NodeId) (names : List String) (before : Nat)
    (cs : List Context) : ((contextsGrove names cs).numbered start before).nodes (some modifier) =
      (contextNodes (.sequential start) modifier names before cs).map (·.node) := by
  induction cs generalizing before with
  | nil => rfl
  | cons c cs ih =>
    rw [contextsGrove, Grove.numbered, Grove.nodes, contextNodes, List.cons_append, List.map_cons,
      List.map_append, nodes_numbered_forestGrove, ih,
      length_forestNodes_numbered start (some ⟨start ++ toString (before + 1)⟩) _ (before + 1)]
    rfl

theorem nodes_numbered_itemsGrove (before : Nat) (items : List Item) :
    ((itemsGrove items).numbered start before).nodes none =
      (itemNodes (.sequential start) before items).map (·.node) := by
  induction items generalizing before with
  | nil => rfl
  | cons item items ih =>
    cases item with
    | set order place tokens entries =>
      rw [itemsGrove, Item.grove, Grove.numbered, Grove.nodes, itemNodes, Item.nodes,
        List.map_append, List.map_cons, nodes_numbered_forestGrove, ih, List.length_cons,
        length_forestNodes_numbered start (some ⟨start ++ toString (before + 1)⟩) _ (before + 1),
        Nat.add_assoc, Nat.add_comm 1]
      rfl
    | modifier order place choice contexts =>
      have hbelow := nodes_numbered_contextsGrove start ⟨start ++ toString (before + 1)⟩
        [choice.name] (before + 1) contexts
      have hsize := congrArg List.length hbelow
      rw [Grove.length_nodes, Grove.size_numbered, List.length_map] at hsize
      rw [itemsGrove, Item.grove, Grove.numbered, Grove.nodes, itemNodes, Item.nodes,
        List.map_append, List.map_cons, hbelow, ih, List.length_cons, hsize, Nat.add_assoc,
        Nat.add_comm 1]
      rfl

/-- Under either scheme the nodes of items are those of a grove. -/
theorem nodes_scheduled_itemsGrove (scheme : IdScheme) (items : List Item) :
    ((itemsGrove items).scheduled scheme).nodes none =
      (itemNodes scheme 0 items).map (·.node) := by
  cases scheme with
  | path => exact map_node_itemNodes 0 items
  | sequential start => exact nodes_numbered_itemsGrove start 0 items

end Resolver

end DesignTokens
