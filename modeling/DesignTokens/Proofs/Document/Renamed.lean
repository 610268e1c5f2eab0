/-
Reading under either scheme of ids. Both number the same grove, one by paths
and one by counting, so some permutation of ids takes the nodes of one reading
to those of the other, entry by entry; their places in the document depend on
neither. References are checked in a store of these nodes. They are paths, which
resolve alike under new ids, so that the issues are the same
(`parse_sequential`).
-/
import DesignTokens.Proofs.Document.Resolvable
import DesignTokens.Proofs.List
import DesignTokens.Proofs.Resolution.Renamed
import DesignTokens.Proofs.Value.Paths

namespace DesignTokens

/-! ## Nodes -/

namespace Grove

theorem length_ids (g : Grove) : g.ids.length = g.size := by
  rw [← map_id_nodes g none, List.length_map, length_nodes]

/-- What takes the ids of a grove to numbers takes its nodes to the numbered ones. -/
theorem nodes_numbered_renamed {σ : Equiv.Perm NodeId} {start : String} {before : Nat} {g : Grove}
    (h : g.ids.map σ = (g.numbered start before).ids) (p : Option NodeId) :
    (g.numbered start before).nodes (p.map σ) = (g.nodes p).map (Node.renamed σ) := by
  induction g generalizing before p with
  | nil => rfl
  | node id o c below next ihb ihn =>
    rw [numbered, ids, ids, List.map_cons, List.map_append] at h
    obtain ⟨hid, hrest⟩ := List.cons.inj h
    have hlength : (below.ids.map σ).length = (below.numbered start (before + 1)).ids.length := by
      rw [List.length_map, length_ids, length_ids, size_numbered]
    obtain ⟨hbelow, hnext⟩ := List.append_inj hrest hlength
    have hb := ihb hbelow (some id)
    rw [Option.map_some, hid] at hb
    rw [numbered, nodes, nodes, hb, ihn hnext p, List.map_cons, List.map_append, Node.renamed, hid]

/-- A permutation takes paths, where none comes twice, to numbers. -/
theorem exists_perm_numbered (start : String) {g : Grove} (hn : g.ids.Nodup) :
    ∃ σ : Equiv.Perm NodeId,
      (g.numbered start 0).nodes none = (g.nodes none).map (Node.renamed σ) := by
  have hlength : g.ids.length = (g.numbered start 0).ids.length := by
    rw [length_ids, length_ids, size_numbered]
  obtain ⟨σ, hσ⟩ := exists_perm_map hn (nodup_ids_numbered start 0 g) hlength
  exact ⟨σ, nodes_numbered_renamed hσ none⟩

/-- What was read refers to tokens by paths alone. -/
theorem Read.byPaths {g : Grove} (hread : g.Read none) (hn : g.ids.Nodup) :
    (Store.ofNodes (g.nodes none)).ByPaths := by
  intro n hmem t ht ref href
  rw [Store.nodes_ofNodes (nodup_nodes hn)] at hmem
  have hvalue := hread.of_mem_nodes hn hmem
  rw [ht] at hvalue
  obtain ⟨raw, hraw⟩ := hvalue
  exact (TokenValue.spelled_of_ofJson hraw href).1

end Grove

/-! ## References -/

/-- The copy of a token is reported where the token is, for the same reason, at its own place. -/
theorem Store.Copied.referenceIssue?_eq {f : NodeId → NodeId} {copy : Node → Node} {s t : Store}
    (h : Store.Copied f copy s t) (hc : s.Consistent) (hp : s.ByPaths) {p p' : Placed}
    (hmem : p.node ∈ s.nodes) (hnode : p'.node = copy p.node) {g : Issue → Issue}
    (hg : ∀ e, g ⟨p.place ++ [Key.value], .unresolved e⟩ =
      ⟨p'.place ++ [Key.value], .unresolved e⟩) :
    referenceIssue? t p' = (referenceIssue? s p).map g := by
  have htoken : p'.node.token? = p.node.token? := by
    rw [hnode, Node.token?, h.content]
    rfl
  rw [referenceIssue?, referenceIssue?, htoken]
  cases ht : p.node.token? with
  | none => rfl
  | some u =>
    have hresolve : t.resolve p'.node.id = s.resolve p.node.id := by
      rw [hnode, h.id]
      exact h.resolve hc hp hmem (Option.isSome_of_eq_some ht)
    dsimp only
    rw [hresolve]
    split
    · rfl
    · cases s.resolve p.node.id with
      | ok _ => rfl
      | error e => exact congrArg some (hg e).symm

/-! ## Places -/

section

variable {scheme scheme' : IdScheme}

mutual

theorem Entry.map_place_nodes {parent parent' : Option NodeId} {names names' : List String}
    {before before' : Nat} {order order' : String} : (e : Entry Pointer.Path) →
    (e.nodes scheme parent names before order).map (·.place) =
      (e.nodes scheme' parent' names' before' order').map (·.place)
  | .token _ _ => rfl
  | .group place _ children => congrArg (place :: ·) (map_place_forestNodes children)

/-- The places of a forest's nodes do not depend on their ids. -/
theorem map_place_forestNodes {parent parent' : Option NodeId} {names names' : List String}
    {before before' : Nat} : (es : List (String × Entry Pointer.Path)) →
    (forestNodes scheme parent names before es).map (·.place) =
      (forestNodes scheme' parent' names' before' es).map (·.place)
  | [] => rfl
  | (order, e) :: es => by
    rw [forestNodes, forestNodes, List.map_append, List.map_append]
    exact congrArg₂ (· ++ ·) (Entry.map_place_nodes e) (map_place_forestNodes es)

end

namespace Resolver

theorem map_place_contextNodes {modifier modifier' : NodeId} {names names' : List String}
    {before before' : Nat} (cs : List Context) :
    (contextNodes scheme modifier names before cs).map (·.place) =
      (contextNodes scheme' modifier' names' before' cs).map (·.place) := by
  induction cs generalizing before before' with
  | nil => rfl
  | cons c cs ih =>
    rw [contextNodes, contextNodes, List.map_append, List.map_append]
    exact congrArg₂ (· ++ ·) (congrArg (c.place :: ·) (map_place_forestNodes c.entries)) ih

/-- The places of a resolver document's nodes do not depend on their ids. -/
theorem map_place_itemNodes {before before' : Nat} (items : List Item) :
    (itemNodes scheme before items).map (·.place) =
      (itemNodes scheme' before' items).map (·.place) := by
  induction items generalizing before before' with
  | nil => rfl
  | cons item items ih =>
    rw [itemNodes, itemNodes, List.map_append, List.map_append]
    refine congrArg₂ (· ++ ·) ?_ ih
    cases item with
    | set order place tokens entries => exact congrArg (place :: ·) (map_place_forestNodes entries)
    | modifier order place choice contexts =>
      exact congrArg (place :: ·) (map_place_contextNodes contexts)

end Resolver

end

/-! ## Issues -/

/-- A placed node under other ids. -/
def Placed.renamed (σ : Equiv.Perm NodeId) (p : Placed) : Placed :=
  { p with node := p.node.renamed σ }

/-- What was read, under other ids; issues name places alone. -/
def Output.renamed (σ : Equiv.Perm NodeId) (o : Output) : Output :=
  { o with nodes := o.nodes.map (Node.renamed σ) }

section

variable {σ : Equiv.Perm NodeId}

theorem eq_map_renamed {l l' : List Placed}
    (hnodes : l'.map (·.node) = (l.map (·.node)).map (Node.renamed σ))
    (hplaces : l'.map (·.place) = l.map (·.place)) : l' = l.map (Placed.renamed σ) := by
  induction l generalizing l' with
  | nil => exact List.map_eq_nil_iff.1 hplaces
  | cons p l ih =>
    cases l' with
    | nil => cases hplaces
    | cons p' l' =>
      obtain ⟨hnode, hnodes⟩ := List.cons.inj hnodes
      obtain ⟨hplace, hplaces⟩ := List.cons.inj hplaces
      exact congrArg₂ List.cons (congrArg₂ Placed.mk hnode hplace) (ih hnodes hplaces)

theorem referenceIssue?_renamed {s : Store} (hc : s.Consistent) (hp : s.ByPaths) {p : Placed}
    (hmem : p.node ∈ s.nodes) :
    referenceIssue? (s.renamed σ) (p.renamed σ) = referenceIssue? s p := by
  have hissue : referenceIssue? (s.renamed σ) (p.renamed σ) = (referenceIssue? s p).map id :=
    (Store.copied_renamed σ s).referenceIssue?_eq hc hp hmem rfl fun _ => rfl
  rw [hissue, Option.map_id_apply]

theorem referenceIssues_renamed {placed : List Placed}
    (hn : ((placed.map (·.node)).map Node.id).Nodup)
    (hp : (Store.ofNodes (placed.map (·.node))).ByPaths) :
    referenceIssues (placed.map (Placed.renamed σ)) = referenceIssues placed := by
  have hnodes : (placed.map (Placed.renamed σ)).map (·.node) =
      (placed.map (·.node)).map (Node.renamed σ) := by
    rw [List.map_map, List.map_map]
    rfl
  have hc := (Store.reachable_ofNodes (placed.map (·.node))).consistent
  rw [referenceIssues, referenceIssues, hnodes, Store.ofNodes_renamed, List.filterMap_map]
  refine List.filterMap_congr fun p hmem => referenceIssue?_renamed hc hp ?_
  rw [Store.nodes_ofNodes hn]
  exact List.mem_map_of_mem hmem

end

/--
References can as well be checked among the tokens of the store, each reported
at the place that is kept under its id.
-/
theorem referenceIssues_eq_filterMap_tokens {placed : List Placed}
    (hn : ((placed.map (·.node)).map Node.id).Nodup) :
    referenceIssues placed =
      let s := Store.ofNodes (placed.map (·.node))
      let places := placed.map fun p => (p.node.id, p.place)
      s.tokens.filterMap fun n => referenceIssue? s ⟨n, (Dict.get? places n.id).getD []⟩ := by
  have hkeys : (Dict.keys (placed.map fun p => (p.node.id, p.place))).Nodup := by
    rw [List.map_map] at hn
    rwa [Dict.keys, List.map_map]
  simp only [referenceIssues, Store.tokens, Store.nodes_ofNodes hn]
  generalize Store.ofNodes (placed.map (·.node)) = s
  rw [List.filterMap_filter, List.filterMap_map]
  refine List.filterMap_congr fun p hmem => ?_
  rw [Function.comp_apply, Dict.get?_of_mem hkeys (List.mem_map_of_mem hmem), Option.getD_some]
  split
  · rfl
  · next htoken =>
    rw [referenceIssue?, Option.not_isSome_iff_eq_none.1 htoken]

/-- Nodes by paths and by numbers, at the same places, give one output under two sets of ids. -/
theorem Output.exists_ofPlaced_renamed {start : String} {g : Grove} (hn : g.ids.Nodup)
    (hread : g.Read none) {placed placed' : List Placed}
    (hpath : g.nodes none = placed.map (·.node))
    (hnumber : (g.numbered start 0).nodes none = placed'.map (·.node))
    (hplaces : placed'.map (·.place) = placed.map (·.place))
    (options : ReadOptions) (issues : List Issue) :
    ∃ σ : Equiv.Perm NodeId, Output.ofPlaced options placed' issues =
      (Output.ofPlaced options placed issues).renamed σ := by
  obtain ⟨σ, hσ⟩ := g.exists_perm_numbered start hn
  rw [hnumber, hpath] at hσ
  have hids := Grove.nodup_nodes hn
  have hrefs := hread.byPaths hn
  rw [hpath] at hids hrefs
  have hissues := referenceIssues_renamed (σ := σ) hids hrefs
  rw [← eq_map_renamed hσ hplaces] at hissues
  refine ⟨σ, ?_⟩
  rw [Output.ofPlaced, Output.ofPlaced, Output.renamed, hσ, hissues]

/-! ## Documents -/

/--
**Ids are a matter of names.** Reading a tree document or a resolver document
with numbers for ids gives what reading it with paths gives, but for a
permutation of the ids: as many nodes, in the same order, each with its order key
and content, below the parent that the permutation gives; the same issues, those
of references among them; and the same information on the document.
-/
theorem parse_sequential (start : String) (options : ReadOptions) {doc : Json}
    (hdoc : doc.WellFormed) :
    (∃ σ : Equiv.Perm NodeId,
      Tree.parse (.sequential start) options doc = (Tree.parse .path options doc).renamed σ) ∧
    ∃ σ : Equiv.Perm NodeId,
      Resolver.parse (.sequential start) options doc =
        ((Resolver.parse .path options doc).1, (Resolver.parse .path options doc).2.renamed σ) := by
  constructor
  · have hforest : ForestReadable none (Tree.read options doc).value :=
      (Tree.readable_read hdoc).forest
    have hids : (forestGrove [] (Tree.read options doc).value).ids.Nodup :=
      nodup_ids_forestGrove _ hforest
    exact Output.exists_ofPlaced_renamed hids (read_forestGrove _ hforest)
      (map_node_forestNodes none [] 0 _) (nodes_numbered_forestGrove start none [] 0 _)
      (map_place_forestNodes _) options _
  · have hitems := (Resolver.sound_read options hdoc).1
    have hids := (Resolver.pathed_itemsGrove _).nodup_ids_of_orderly
      (Resolver.orderly_itemsGrove hitems)
    obtain ⟨σ, hσ⟩ := Output.exists_ofPlaced_renamed hids (Resolver.read_itemsGrove hitems)
      (Resolver.map_node_itemNodes 0 _) (Resolver.nodes_numbered_itemsGrove start 0 _)
      (Resolver.map_place_itemNodes _) options _
    exact ⟨σ, Prod.ext rfl hσ⟩

/-- A token that refers to another, one that refers to itself, and one to nothing. -/
def referring : Json :=
  .object [("a", .object [(Key.type, .string "number"), (Key.value, .number (.integer 1))]),
    ("b", .object [(Key.value, .string "\x7ba\x7d")]),
    ("g", .object [("c", .object [(Key.value, .string "\x7bg.c\x7d")]),
      ("d", .object [(Key.value, .string "\x7be\x7d")])])]

/-- The same tokens in a context. -/
def referringItems : Json :=
  .object [("version", .string resolverVersion), ("resolutionOrder", .array [
    .object [("type", .string "modifier"), ("name", .string "m"),
      ("contexts", .object [("lit", .array [referring])])]])]

/-- Whatever the ids, the two references that fail are found, and the one that does not is not. -/
theorem parse_sequential_referring :
    (referring.WellFormed ∧
      (Tree.parse .path .all referring).nodes.map (fun n => n.id.text) =
        ["/a", "/b", "/g", "/g/c", "/g/d"] ∧
      (Tree.parse .path .all referring).issues.map Issue.path =
        [["g", "c", Key.value], ["g", "d", Key.value]] ∧
      ∃ σ : Equiv.Perm NodeId,
        Tree.parse (.sequential "n") .all referring = (Tree.parse .path .all referring).renamed σ) ∧
    (referringItems.WellFormed ∧
      (Resolver.parse .path .all referringItems).2.nodes.map (fun n => n.id.text) =
        ["/m", "/m/lit", "/m/lit/a", "/m/lit/b", "/m/lit/g", "/m/lit/g/c", "/m/lit/g/d"] ∧
      (Resolver.parse .path .all referringItems).2.issues.length = 2 ∧
      ∃ σ : Equiv.Perm NodeId, Resolver.parse (.sequential "n") .all referringItems =
        ((Resolver.parse .path .all referringItems).1,
          (Resolver.parse .path .all referringItems).2.renamed σ)) := by
  have htree : referring.WellFormed := by
    simp [referring, Json.WellFormed, Json.WellFormedMembers, Key.type, Key.value]
  have hitems : referringItems.WellFormed := by
    simp [referringItems, Json.WellFormed, Json.WellFormedMembers, Json.WellFormedItems, htree]
  exact ⟨⟨htree, by decide +kernel, by decide +kernel, (parse_sequential "n" .all htree).1⟩,
    ⟨hitems, by decide +kernel, by decide +kernel, (parse_sequential "n" .all hitems).2⟩⟩

end DesignTokens
