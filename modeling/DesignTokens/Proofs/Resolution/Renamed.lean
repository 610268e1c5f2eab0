/-
Resolution under other ids. Whatever finds nodes finds the renamed ones in a
renamed store, and whatever gives names or texts gives the same, for stored
nodes: the text for a missing one is its id. So a token all of whose references
are paths resolves to the same value, or to the same error
(`resolve_renamed`); a reference by id names the old id, and is not followed here.
-/
import DesignTokens.Proofs.Resolution.Copies
import DesignTokens.Proofs.Store.Renamed

namespace DesignTokens.Store

variable (σ : Equiv.Perm NodeId) (s : Store)

/-! ## Paths -/

theorem groupNames_renamed (id : NodeId) : (s.renamed σ).groupNames (σ id) = s.groupNames id := by
  rw [groupNames, groupNames, ancestors_renamed, List.takeWhile_map, List.map_map]
  rfl

theorem namesTo_renamed (n : Node) : (s.renamed σ).namesTo (n.renamed σ) = s.namesTo n := by
  rw [namesTo, namesTo, Node.id_renamed, Node.name_renamed, groupNames_renamed]

theorem displayOf_renamed {id : NodeId} (h : id ∈ s.ids) :
    (s.renamed σ).displayOf (σ id) = s.displayOf id := by
  obtain ⟨c, hc⟩ := Option.isSome_iff_exists.1 (Dict.isSome_get?_iff.2 h)
  have hn : s.node? id = some c.node := by rw [node?, hc, Option.map_some]
  rw [displayOf, displayOf, path?, path?, node?_renamed, hn]
  simp only [Option.map_some, Option.getD_some, namesTo_renamed]

/-! ## Layers -/

/-- Pairs of ids under other ids. -/
def pairsRenamed (active : List (NodeId × NodeId)) : List (NodeId × NodeId) :=
  active.map (Prod.map σ σ)

theorem activeContexts_renamed (from? : Option NodeId) :
    (s.renamed σ).activeContexts (from?.map σ) = pairsRenamed σ (s.activeContexts from?) := by
  cases from? with
  | none => rfl
  | some id =>
    have haround : ((s.renamed σ).node? (σ id)).toList ++ (s.renamed σ).ancestors (σ id) =
        ((s.node? id).toList ++ s.ancestors id).map (Node.renamed σ) := by
      rw [node?_renamed, ancestors_renamed, List.map_append]
      cases s.node? id <;> rfl
    simp only [Option.map_some, activeContexts, haround, List.foldl_map]
    generalize (s.node? id).toList ++ s.ancestors id = around
    show _ = pairsRenamed σ _
    suffices h : ∀ active, around.foldl _ (pairsRenamed σ active) =
        pairsRenamed σ (around.foldl _ active) from h []
    induction around with
    | nil => exact fun _ => rfl
    | cons n around ih =>
      intro active
      simp only [List.foldl_cons, Node.isContext_renamed, Node.parent_renamed, Node.id_renamed]
      cases n.isContext with
      | false => exact ih active
      | true =>
        cases n.parent with
        | none => exact ih active
        | some modifier =>
          simp only [Option.map_some]
          rw [← ih, pairsRenamed, Dict.insert_map σ.injective]
          rfl

theorem contexts_renamed (modifier : NodeId) :
    (s.renamed σ).contexts (σ modifier) = (s.contexts modifier).map (Node.renamed σ) := by
  rw [contexts, contexts, ← Option.map_some, children_renamed, List.filter_map]
  rfl

theorem chosenContext?_renamed (active : List (NodeId × NodeId)) (id : NodeId) (m : Modifier) :
    (s.renamed σ).chosenContext? (pairsRenamed σ active) (σ id) m =
      (s.chosenContext? active id m).map (Node.renamed σ) := by
  have haround : ((Dict.get? (pairsRenamed σ active) (σ id)).bind fun c =>
        ((s.contexts id).map (Node.renamed σ)).find? fun n => n.id = c) =
      ((Dict.get? active id).bind fun c => (s.contexts id).find? fun n => n.id = c).map
        (Node.renamed σ) := by
    rw [pairsRenamed, Dict.get?_map σ.injective]
    cases Dict.get? active id with
    | none => rfl
    | some c => simp [List.find?_map, Function.comp_def]
  have hdefault : (m.defaultContext.bind fun name =>
        ((s.contexts id).map (Node.renamed σ)).find? fun n => n.name = name) =
      (m.defaultContext.bind fun name => (s.contexts id).find? fun n => n.name = name).map
        (Node.renamed σ) := by
    cases m.defaultContext with
    | none => rfl
    | some name => exact List.find?_map ..
  simp only [chosenContext?, contexts_renamed, haround, hdefault, List.head?_map, Option.map_or]

theorem containerLayers_renamed (active : List (NodeId × NodeId)) (visited : List NodeId)
    (n : Node) :
    (s.renamed σ).containerLayers (pairsRenamed σ active) (visited.map σ) (n.renamed σ) =
      (s.containerLayers active visited n).map σ := by
  rw [containerLayers, containerLayers, Node.content_renamed]
  cases n.content with
  | token | group | set | context => rfl
  | modifier m =>
    simp only [Node.id_renamed, chosenContext?_renamed]
    cases s.chosenContext? active n.id m <;> rfl
  | resolver =>
    have hiff : ((n.renamed σ).id ∈ (s.renamed σ).ids ∧ (n.renamed σ).id ∉ visited.map σ) ↔
        n.id ∈ s.ids ∧ n.id ∉ visited := by
      rw [Node.id_renamed, ids_renamed, List.mem_map_of_injective σ.injective,
        List.mem_map_of_injective σ.injective]
    have hchildren : (s.renamed σ).children (some (n.renamed σ).id) =
        (s.children (some n.id)).map (Node.renamed σ) := children_renamed σ s (some n.id)
    by_cases hv : n.id ∈ s.ids ∧ n.id ∉ visited
    · have hlt := unvisited_cons_lt hv.1 hv.2
      rw [dif_pos hv, dif_pos (hiff.2 hv), hchildren, List.flatMap_map, List.map_flatMap]
      exact List.flatMap_congr fun c _ => containerLayers_renamed active (n.id :: visited) c
    · rw [dif_neg hv, dif_neg fun hv' => hv (hiff.1 hv')]
      rfl
termination_by s.unvisited visited

theorem layers_renamed (from? : Option NodeId) :
    (s.renamed σ).layers (from?.map σ) = (s.layers from?).map (Option.map σ) := by
  have hroots : (s.renamed σ).children none = (s.children none).map (Node.renamed σ) :=
    children_renamed σ s none
  rw [layers, layers, activeContexts_renamed, hroots, List.flatMap_map, List.map_cons, List.map_map]
  have hlayers : ((s.children none).flatMap fun n =>
        (s.renamed σ).containerLayers (pairsRenamed σ (s.activeContexts from?)) [] (n.renamed σ)) =
      ((s.children none).flatMap (s.containerLayers (s.activeContexts from?) [])).map σ := by
    rw [List.map_flatMap]
    exact List.flatMap_congr fun n _ => containerLayers_renamed σ s _ [] n
  rw [hlayers, List.map_map]
  rfl

/-! ## Lookup -/

theorem copies_renamed :
    Copies (fun _ => True) (Option.map σ) (Node.renamed σ) s (s.renamed σ) where
  id _ := rfl
  content _ := rfl
  children p _ := children_renamed σ s p
  closed _ _ _ _ := trivial

theorem lookup?_renamed (from? : Option NodeId) (names : List String) :
    (s.renamed σ).lookup? (from?.map σ) names = (s.lookup? from? names).map (Node.renamed σ) := by
  rw [lookup?, lookup?]
  split
  · rfl
  · rw [layers_renamed, ← List.map_reverse]
    induction (s.layers from?).reverse with
    | nil => rfl
    | cons layer layers ih =>
      rw [List.map_cons, List.findSome?_cons, List.findSome?_cons,
        (copies_renamed σ s).tokenBelow? trivial names]
      cases s.tokenBelow? layer names with
      | none => exact ih
      | some n => rfl

theorem target_path_renamed (dotted : String) (holder : NodeId) :
    (s.renamed σ).target (.path dotted) (σ holder) =
      (s.target (.path dotted) holder).map (Node.renamed σ) := by
  have hlookup := lookup?_renamed σ s (some holder) (Alias.segmentsOf dotted)
  simp only [Option.map_some] at hlookup
  simp only [target, tokenAt?, hlookup]
  cases s.lookup? (some holder) (Alias.segmentsOf dotted) <;> rfl

/-! ## Resolution -/

theorem ownType_renamed (n : Node) : (s.renamed σ).ownType (n.renamed σ) = s.ownType n := by
  rw [ownType, ownType, Node.id_renamed, Node.content_renamed, ancestors_renamed, List.filter_map,
    List.findSome?_map]
  rfl

theorem copied_renamed : Copied σ (Node.renamed σ) s (s.renamed σ) where
  injective _ _ he := σ.injective he
  id _ := rfl
  content _ := rfl
  stored n hn := by
    rw [node?_renamed, hn]
    rfl
  displayOf n hn := displayOf_renamed σ s (mem_ids_of_node? hn)
  ownType n _ := ownType_renamed σ s n
  target n dotted _ := target_path_renamed σ s dotted n.id

/-- A token resolves under its new id to what it resolves to under the old one. -/
theorem resolve_renamed {s : Store} (hc : s.Consistent) (hp : s.ByPaths) {n : Node}
    (hn : n ∈ s.nodes) (htoken : n.isToken) : (s.renamed σ).resolve (σ n.id) = s.resolve n.id :=
  (copied_renamed σ s).resolve hc hp hn htoken

end DesignTokens.Store
