/-
A resolver document that is one set with one source. Reading it takes another
way than reading the source as a tree document: the source is merged, its
references are replaced under its own place, its entries become nodes below the
set, and what they refer to is looked up through layers. All the same it gives
the nodes of the tree below a node for the set, and the same issues at the
places where they lie in the list of sources (`parse_soleSet`).
-/
import DesignTokens.Proofs.Document.Plain
import DesignTokens.Proofs.Document.Renamed
import DesignTokens.Proofs.Document.Resolver.ReadBack
import DesignTokens.Proofs.Document.Tree.Sourced
import DesignTokens.Proofs.Resolution.Mounted

namespace DesignTokens

/-! ## Nodes -/

/-- A node of a tree and its place, where the tree is the first source of a set. -/
def Placed.sourced (base : NodeId) (list : Pointer.Path) (p : Placed) : Placed :=
  ⟨p.node.mounted base, list ++ p.place⟩

theorem IdScheme.path_cons (name : String) (names : List String) (before before' : Nat) :
    IdScheme.path.id (name :: names) before =
      (IdScheme.path.id [name] 0).under (IdScheme.path.id names before') :=
  congrArg NodeId.mk (Pointer.format_append [name] names)

section

variable (name : String) (list : Pointer.Path)

mutual

theorem Entry.nodes_sourced (parent : Option NodeId) (names : List String) (before before' : Nat)
    (order : String) : (e : Entry Pointer.Path) →
    (e.sourced list).nodes .path (some ((IdScheme.path.id [name] 0).mountPoint parent))
        (name :: names) before order =
      (e.nodes .path parent names before' order).map
        (Placed.sourced (IdScheme.path.id [name] 0) list)
  | .token place t => by
    rw [Entry.sourced, Entry.nodes, Entry.nodes, List.cons_append, IdScheme.path_cons _ _ _ before']
    rfl
  | .group place g children => by
    have hchildren := forestNodes_sourced (some (IdScheme.path.id (names ++ [g.name]) before'))
      (names ++ [g.name]) (before + 1) (before' + 1) children
    rw [Entry.sourced, Entry.nodes, Entry.nodes, List.cons_append,
      IdScheme.path_cons _ _ _ before', List.map_cons]
    exact congrArg (_ :: ·) hchildren

theorem forestNodes_sourced (parent : Option NodeId) (names : List String)
    (before before' : Nat) : (es : List (String × Entry Pointer.Path)) →
    forestNodes .path (some ((IdScheme.path.id [name] 0).mountPoint parent)) (name :: names) before
        (forestSourced list es) =
      (forestNodes .path parent names before' es).map
        (Placed.sourced (IdScheme.path.id [name] 0) list)
  | [] => rfl
  | (order, e) :: es => by
    rw [forestSourced, forestNodes, forestNodes, List.map_append,
      ← forestNodes_sourced parent names, ← Entry.nodes_sourced parent names]

end

end

/-! ## References between tokens -/

theorem ne_empty_of_forestGrove {es : List (String × Entry Pointer.Path)} {n : Node}
    (hn : n ∈ (forestGrove [] es).nodes none) : n.id ≠ ⟨""⟩ ∧ n.parent ≠ some ⟨""⟩ := by
  have hid : ∀ id ∈ (forestGrove [] es).ids, id ≠ ⟨""⟩ := by
    rintro id hid he
    obtain ⟨top, -, rest, hrest⟩ := (pathed_forestGrove [] es).below id hid
    exact Grove.format_ne_append [] top rest (he.symm.trans hrest)
  obtain ⟨hmem, hparent⟩ := Grove.of_mem_nodes hn
  refine ⟨hid n.id hmem, fun he => ?_⟩
  rcases hparent with ⟨hp, -⟩ | ⟨i, hi, hp⟩
  · cases hp.symm.trans he
  · exact hid i hi (Option.some.inj (hp.symm.trans he))

theorem map_node_sourced (base : NodeId) (list : Pointer.Path) (placed : List Placed) :
    (placed.map (Placed.sourced base list)).map (·.node) =
      (placed.map (·.node)).map (Node.mounted base) := by
  rw [List.map_map, List.map_map]
  rfl

section

variable {es : List (String × Entry Pointer.Path)} (hes : ForestReadable none es)

include hes

/-- The tokens of a tree are found, called and typed below a set as they are alone. -/
theorem copied_forestNodes {root : Node} {set : TokenSet} (hset : root.content = .set set)
    (hroot : root.parent = none) :
    let ns := (forestNodes .path none [] 0 es).map (·.node)
    Store.Copied root.id.under (Node.mounted root.id) (Store.ofNodes ns)
      (Store.ofNodes (root :: ns.map (Node.mounted root.id))) := by
  intro ns
  have hns : (forestGrove [] es).nodes none = ns := map_node_forestNodes none [] 0 es
  have hn : (forestGrove [] es).ids.Nodup := nodup_ids_forestGrove es hes
  have hk : (forestGrove [] es).Keyed := keyed_forestGrove es hes
  have hplain := Grove.plain_ofNodes (plain_forestGrove es hes.writable) hn hk
  have hmounted := Store.mounted_ofNodes hset hroot
    (Grove.kept_nodes (Grove.apart_none hn) hk) fun _ => ne_empty_of_forestGrove
  rw [hns] at hplain hmounted
  exact hmounted.copied (Store.reachable_ofNodes ns).consistent hplain

/-- The references of a tree that fail are those that fail where it lies below a set. -/
theorem referenceIssues_sourced (root : Placed) {set : TokenSet}
    (hset : root.node.content = .set set) (hroot : root.node.parent = none) (list : Pointer.Path) :
    referenceIssues (root ::
        (forestNodes .path none [] 0 es).map (Placed.sourced root.node.id list)) =
      (referenceIssues (forestNodes .path none [] 0 es)).map (Issue.sourced list) := by
  have hn : (forestGrove [] es).ids.Nodup := nodup_ids_forestGrove es hes
  have hpaths := (read_forestGrove es hes).byPaths hn
  have hstored := Store.nodes_ofNodes (Grove.nodup_nodes hn)
  rw [map_node_forestNodes none [] 0 es] at hpaths hstored
  have hc := (Store.reachable_ofNodes ((forestNodes .path none [] 0 es).map (·.node))).consistent
  have hcopied := copied_forestNodes hes hset hroot
  -- The set itself is no token.
  have hself : referenceIssue? (Store.ofNodes (root.node ::
      ((forestNodes .path none [] 0 es).map (·.node)).map (Node.mounted root.node.id))) root =
        none := by
    rw [referenceIssue?, Node.token?, hset]
  rw [referenceIssues, referenceIssues, List.map_cons, map_node_sourced, List.filterMap_cons_none
    hself, List.filterMap_map, List.map_filterMap]
  refine List.filterMap_congr fun p hp => hcopied.referenceIssue?_eq hc hpaths ?_ rfl fun e => ?_
  · rw [hstored]
    exact List.mem_map_of_mem hp
  · exact congrArg (Issue.mk · _) (List.append_assoc ..).symm

/-- What a tree comes to below a set. -/
theorem ofPlaced_sourced (root : Placed) {set : TokenSet} (hset : root.node.content = .set set)
    (hroot : root.node.parent = none) (list : Pointer.Path) (options : ReadOptions)
    (issues : List Issue) :
    let tree := Output.ofPlaced options (forestNodes .path none [] 0 es) issues
    Output.ofPlaced options
        (root :: (forestNodes .path none [] 0 es).map (Placed.sourced root.node.id list))
        (issues.map (Issue.sourced list)) =
      ⟨root.node :: tree.nodes.map (Node.mounted root.node.id),
        tree.issues.map (Issue.sourced list)⟩ := by
  simp only [Output.ofPlaced, List.map_cons, map_node_sourced, List.map_append,
    referenceIssues_sourced hes root hset hroot list]
  cases options.checkReferences <;> rfl

end

/-! ## Reading -/

namespace Resolver

variable {options : ReadOptions} {doc : Json} {list : Pointer.Path}

theorem readSource_object {place : Pointer.Path} {ms : Members}
    (h : Pointer.reference? (.object ms) = none) :
    readSource doc place (.object ms) = pure (some (.object ms)) := by
  simp only [readSource, h]
  rfl

/-- What is merged of one source is the source, with its references replaced if asked for. -/
theorem readMerged_singleton {ms : Members} (hms : (Json.object ms).WellFormed)
    (h : Pointer.reference? (.object ms) = none) :
    readMerged options doc list [.object ms] =
      (Tree.read options (.object ms)).sourced list (forestSourced list) := by
  cases hexpand : options.expandReferences with
  | false =>
    have hsources : readSources options doc list 0 [.object ms] = pure [.object ms] := by
      simp only [readSources, readSource_object h, hexpand, pure_bind]
      rfl
    rw [readMerged, hsources, pure_bind, Json.mergeLayers_singleton hms.1, Tree.read, hexpand]
    exact Tree.readRoot_sourced list ms
  | true =>
    have hsources : readSources options doc list 0 [.object ms] =
        (Expansion.expandValues (.object ms) []).sourced list fun v => [v] := by
      have hplace : list ++ [toString 0] = list ++ ["0"] := rfl
      simp only [readSources, readSource_object h, hexpand, pure_bind, hplace, if_true]
      rw [Expansion.expandValues_sourced]
      exact Reading.sourced_bind_pure _ id fun v => [v] ++ []
    have hw := Tree.value_expandValues_wellFormed hms []
    obtain ⟨ms', hms'⟩ := Expansion.exists_members_expandValues ms []
    rw [hms'] at hw
    rw [readMerged, Tree.read, hexpand]
    refine Reading.bind_sourced_value hsources ?_
    rw [hms', Json.mergeLayers_singleton hw.1]
    exact Tree.readRoot_sourced list ms'

/-- A set with one source is read as the source is. -/
theorem readItem_set {name : String} {source item : Members} {seen : List String}
    (hitem : item.Perm
      [("type", .string "set"), ("name", .string name), ("sources", .array [.object source])])
    (hsource : (Json.object source).WellFormed)
    (href : Pointer.reference? (.object source) = none) (hseen : name ∉ seen)
    (place : Pointer.Path) (order : String) :
    readItem options doc place order seen (.object item) =
      (Tree.read options (.object source)).sourced (place ++ ["sources"]) fun es =>
        (name :: seen, some (.set order place ⟨name, none, none⟩
          (forestSourced (place ++ ["sources"]) es))) := by
  have hget := Dict.get?_of_perm hitem (by simp)
  have hname : Dict.get? item "name" = some (.string name) := by
    rw [hget]
    rfl
  have hkind : kind? item = some .set := by
    rw [kind?, hget]
    rfl
  have hd : readString item place "description" = pure none := by
    rw [readString, hget]
    rfl
  have he : readExtensions item place = pure none := by
    rw [readExtensions, hget]
    rfl
  have hsources : (Dict.get? item "sources").bind Json.items? = some [.object source] := by
    rw [hget]
    rfl
  have hset : readSet options doc place order item ⟨name, none, none⟩ =
      (Tree.read options (.object source)).sourced (place ++ ["sources"]) fun es =>
        some (.set order place ⟨name, none, none⟩ (forestSourced (place ++ ["sources"]) es)) := by
    simp only [readSet, hsources, readMerged_singleton hsource href]
    exact Reading.sourced_bind_pure ..
  rw [readItem_of_members hname hkind hseen hd he]
  dsimp only
  rw [hset]
  exact Reading.sourced_bind_pure ..

/-! ## The document -/

/-- A document of the version that is read, with one item, a set with one source. -/
def IsSoleSet (name : String) (source doc : Json) : Prop :=
  ∃ ms item : Members, doc = .object ms ∧
    ms.Perm [("version", .string resolverVersion), ("resolutionOrder", .array [.object item])] ∧
    item.Perm [("type", .string "set"), ("name", .string name), ("sources", .array [source])]

/-- Where the source is listed. -/
def solePlace : Pointer.Path := ["resolutionOrder", "0", "sources"]

/-- The set with what is read of its source. -/
def soleItem (name : String) (es : Forest Pointer.Path) : Item :=
  .set "a0" ["resolutionOrder", "0"] ⟨name, none, none⟩ (forestSourced solePlace es)

theorem read_soleSet {name : String} {source : Members} (hsource : (Json.object source).WellFormed)
    (href : Pointer.reference? (.object source) = none)
    (hdoc : IsSoleSet name (.object source) doc) :
    read options doc = (Tree.read options (.object source)).sourced solePlace fun es =>
      ⟨⟨"", none⟩, [soleItem name es]⟩ := by
  obtain ⟨ms, item, rfl, hms, hitem⟩ := hdoc
  have hget := Dict.get?_of_perm hms (by simp)
  have hitems : items? ms = .ok [.object item] := by
    simp only [items?, hget]
    rfl
  have hstring : readString ms [] "name" = pure none ∧ readString ms [] "description" = pure none := by
    simp only [readString, hget]
    exact ⟨rfl, rfl⟩
  have hkeyed : checkKeyedItems ms ["sets", "modifiers"] = pure () := by
    simp only [checkKeyedItems, Dict.contains, hget]
    rfl
  have hinitial : OrderKey.initial [Json.object item].length = ["a0"] := by
    show OrderKey.initial 1 = ["a0"]
    decide
  have hread : readItems options (.object ms) [] 0 [("a0", .object item)] =
      (Tree.read options (.object source)).sourced solePlace fun es => [soleItem name es] := by
    have hplace : ["resolutionOrder", toString 0] = ["resolutionOrder", "0"] := rfl
    simp only [readItems, hplace, readItem_set hitem hsource href List.not_mem_nil, pure_bind]
    exact Reading.sourced_bind_pure ..
  simp only [read, hitems, readItemList, hstring, hkeyed, hinitial, pure_bind,
    List.zip_cons_cons, List.zip_nil_right, hread]
  exact Reading.sourced_bind_pure ..

theorem itemNodes_soleItem (name : String) (es : Forest Pointer.Path) :
    itemNodes .path 0 [soleItem name es] =
      ⟨⟨⟨Pointer.format [name]⟩, none, "a0", .set ⟨name, none, none⟩⟩, ["resolutionOrder", "0"]⟩ ::
        (forestNodes .path none [] 0 es).map
          (Placed.sourced ⟨Pointer.format [name]⟩ solePlace) := by
  rw [itemNodes, itemNodes, List.append_nil, soleItem, Item.nodes]
  exact congrArg (_ :: ·) (forestNodes_sourced name solePlace none [] (0 + 1) 0 es)

/--
**A source of its own.** Take any object for the source of a set, unless it is a
reference, and let the set be all that a resolver document has. The nodes that
are read of the document are one for the set and those that are read of the
source as a tree document: behind the id of the set instead of at the top,
otherwise with the same keys and contents. The issues are the same ones in the
same order, those of references in values at the place of the source, all others
at the place of the list that it is in.
-/
theorem parse_soleSet {name : String} {source doc : Json} (hsource : source.WellFormed)
    (hobject : source.isObject) (href : Pointer.reference? source = none)
    (hdoc : IsSoleSet name source doc) (options : ReadOptions) :
    let tree := Tree.parse .path options source
    let root : Node := ⟨⟨"/" ++ Pointer.escape name⟩, none, "a0", .set ⟨name, none, none⟩⟩
    Resolver.parse .path options doc = (⟨"", none⟩,
      ⟨root :: tree.nodes.map (Node.mounted root.id),
        tree.issues.map (Issue.sourced solePlace)⟩) := by
  cases source with
  | object ms =>
    have hforest : ForestReadable none (Tree.read options (.object ms)).value :=
      (Tree.readable_read hsource).forest
    rw [Resolver.parse, read_soleSet hsource href hdoc]
    simp only [Reading.sourced, itemNodes_soleItem]
    rw [Pointer.format_singleton]
    exact congrArg (Prod.mk _) (ofPlaced_sourced hforest ⟨_, _⟩ rfl rfl solePlace options _)
  | _ => cases hobject

/-- A group with a value of its own, a reference to it and one to nothing; and two bad entries. -/
def flawed : Json :=
  .object [("g", .object [(Key.type, .string "number"), (Key.value, .number (.integer 1)),
      ("x", .object [(Key.value, .string "\x7bg\x7d")]),
      ("y", .object [(Key.value, .string "\x7bnowhere\x7d")])]),
    ("bad", .object [(Key.value, .object [("$ref", .string "#/missing")])]),
    ("flat", .number (.integer 3))]

/-- The same as a set with a slash in its name. -/
def flawedSet : Json :=
  .object [("resolutionOrder", .array [.object [("sources", .array [flawed]),
      ("type", .string "set"), ("name", .string "a/b")]]),
    ("version", .string resolverVersion)]

/-- Four nodes come to lie below the set, and three issues in the list, one of them a place deeper. -/
theorem parse_soleSet_flawed :
    (flawed.WellFormed ∧ flawed.isObject ∧ Pointer.reference? flawed = none ∧
      IsSoleSet "a/b" flawed flawedSet) ∧
    (Tree.parse .path .all flawed).nodes.map (fun n => n.id.text) =
      ["/g", "/g/$root", "/g/x", "/g/y"] ∧
    (parse .path .all flawedSet).2.nodes.map (fun n => n.id.text) =
      ["/a~1b", "/a~1b/g", "/a~1b/g/$root", "/a~1b/g/x", "/a~1b/g/y"] ∧
    (parse .path .all flawedSet).2.issues.map Issue.pointer =
      ["/resolutionOrder/0/sources/0/bad/$value", "/resolutionOrder/0/sources/flat",
        "/resolutionOrder/0/sources/g/y/$value"] ∧
    parse .path .all flawedSet = (⟨"", none⟩,
      ⟨⟨⟨"/a~1b"⟩, none, "a0", .set ⟨"a/b", none, none⟩⟩ ::
          (Tree.parse .path .all flawed).nodes.map (Node.mounted ⟨"/a~1b"⟩),
        (Tree.parse .path .all flawed).issues.map (Issue.sourced solePlace)⟩) := by
  have hflawed : flawed.WellFormed := by
    simp [flawed, Json.WellFormed, Json.WellFormedMembers, Key.type, Key.value]
  have hset : IsSoleSet "a/b" flawed flawedSet :=
    ⟨_, _, rfl, .swap .., ((List.Perm.swap ..).trans (.cons _ (.swap ..)))⟩
  exact ⟨⟨hflawed, rfl, rfl, hset⟩, by decide +kernel, by decide +kernel, by decide +kernel,
    parse_soleSet hflawed rfl rfl hset .all⟩

end Resolver

end DesignTokens
