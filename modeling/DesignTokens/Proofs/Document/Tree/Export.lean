/-
Exporting a store as a tree document. A store that was made in any way, with
references by id, keys that repeat and a group's own token anywhere among its
children, is written as a document from which every path finds a token that
resolves as before (`Tree.export_resolves`).

What is written is the tree of the store with each alias spelled by path. Every
alias can be spelled so since every token resolves; the values can then be read
under the types that come down to them, and the reader gives back the tree,
tidied, as a store that mirrors the first (`Store.Exportable.mirrored`).
-/
import DesignTokens.Proofs.Document.Plain
import DesignTokens.Proofs.Document.Tree.Namespace

namespace DesignTokens

/--
A store of groups and tokens that names can lead through: with distinct names
that may stand in a document, literals that are read from one but for their
aliases, and no token that does not resolve.
-/
structure Store.Exportable (s : Store) : Prop extends s.Plain where
  named : ∀ n ∈ s.nodes, Name.Valid n.name ∨
    n.isToken ∧ n.name = rootTokenName ∧ n.parent ≠ none
  literals : ∀ n ∈ s.nodes, ∀ t lit, n.content = .token t → t.value = .literal lit →
    ∃ type raw read, TokenValue.ofJson type raw = .ok (.literal read) ∧ read.shape = lit.shape
  resolvable : s.Resolvable

namespace Store.Exportable

variable {s : Store} (h : s.Exportable)

include h

theorem fit : ∀ n ∈ s.nodes, Name.Fit n.name := by
  intro n hn
  rcases h.named n hn with hv | ⟨-, hroot, -⟩
  · exact hv.fit
  · exact hroot ▸ Name.fit_root

theorem valid_of_group {n : Node} (hn : n ∈ s.nodes) {g : Group} (hg : n.content = .group g) :
    Name.Valid n.name := by
  refine (h.named n hn).resolve_right fun ⟨htoken, _⟩ => ?_
  obtain ⟨t, ht⟩ := Node.isToken_iff.1 htoken
  cases hg.symm.trans ht

theorem groups : ∀ n ∈ s.nodes, n.isGroup → n.name ≠ rootTokenName := by
  intro n hn hgroup
  obtain ⟨g, hg⟩ := Node.isGroup_iff.1 hgroup
  exact (h.valid_of_group hn hg).ne_root

variable (hc : s.Consistent)

include hc

/-! ## Aliases -/

omit h hc in
theorem aliasText_of_target {ref : Alias} {holder : NodeId} {m : Node}
    (ht : s.target ref holder = .ok m) :
    s.aliasText holder ref = .ok (s.spell ref).display := by
  cases ref with
  | path dotted => rfl
  | id id =>
    cases hn : s.node? id with
    | none =>
      simp only [target, hn] at ht
      cases ht
    | some n =>
      simp only [aliasText, spell, path?, hn]
      rfl

theorem exists_target {n : Node} (hn : n ∈ s.nodes) {t : Token} (ht : n.content = .token t)
    {ref : Alias} (href : ref ∈ t.value.aliases) : ∃ m, s.target ref n.id = .ok m := by
  obtain ⟨r, hr⟩ := h.resolvable n hn (Node.isToken_iff.2 ⟨t, ht⟩)
  exact (resolve_eq_ok_iff.1 hr).exists_target (hc.node?_eq_some_iff.2 ⟨hn, rfl⟩) ht href

/-- Spelled by path, every alias can be read. -/
theorem spelled {n : Node} (hn : n ∈ s.nodes) {t : Token} (ht : n.content = .token t) :
    ∀ ref ∈ (t.value.respell s.spell).aliases, ref.Spelled := by
  intro ref href
  rw [TokenValue.aliases_respell] at href
  obtain ⟨ref', href', he⟩ := List.mem_map.1 href
  obtain ⟨m, hm⟩ := h.exists_target hc hn ht href'
  obtain ⟨dotted, hspell, hcalls⟩ := h.toPlain.of_target hc h.fit h.groups hm
  rw [← he, hspell]
  exact Alias.spelled_of_segments (hcalls.fit hc fun n hn _ => h.fit n hn)

/-- Spelled by path, a value can be read under the type that its token has. -/
theorem readable_respell {n : Node} (hn : n ∈ s.nodes) {t : Token} (ht : n.content = .token t) :
    (t.value.respell s.spell).Readable (t.declaredType.or (s.inheritedType n)) := by
  have hspelled := h.spelled hc hn ht
  have hnode := hc.node?_eq_some_iff.2 ⟨hn, rfl⟩
  cases hv : t.value with
  | aliasTo ref =>
    rw [hv] at hspelled
    exact ⟨_, TokenValue.ofJson_toJson_aliasTo (hspelled _ (List.mem_singleton.2 rfl))⟩
  | literal lit =>
    obtain ⟨r, hr⟩ := h.resolvable n hn (Node.isToken_iff.2 ⟨t, ht⟩)
    have htype : s.ownType n = some lit.type := by
      cases resolve_eq_ok_iff.1 hr with
      | literal premises stored token held own found derived filled =>
        cases stored.symm.trans hnode
        cases token.symm.trans ht
        cases held.symm.trans hv
        exact ownType_eq_some_iff.2 own
      | aliasTo stored token held found derived own =>
        cases stored.symm.trans hnode
        cases token.symm.trans ht
        cases held.symm.trans hv
    have hown : t.declaredType.or (s.inheritedType n) = some lit.type := by
      rw [← htype, ownType, ht]
      rfl
    obtain ⟨type, raw, read, hraw, hshape⟩ := h.literals n hn t lit ht hv
    have hread : type = some lit.type := by
      rw [TokenValue.type_eq_of_ofJson hraw, ← read.type_respell Alias.blank, ← Literal.shape,
        hshape, Literal.shape, Literal.type_respell]
    rw [hread] at hraw
    rw [hv] at hspelled
    rw [hown]
    exact ⟨_, TokenValue.ofJson_toJson_literal hraw
      (hshape.trans (lit.shape_respell s.spell).symm) hspelled⟩

/-! ## The tree -/

theorem map_name_forestBelow {p : Option NodeId} {above : List Node} (ha : s.Around p above) :
    (s.forestBelow (above.map Node.id) p).map (fun e => e.2.name) =
      (s.children p).map Node.name := by
  have hsome : (s.children p).map Node.name = (s.children p).filterMap (some ∘ Node.name) := by
    rw [List.filterMap_eq_map]
  rw [forestBelow_eq, List.map_filterMap, hsome]
  refine List.filterMap_congr fun n hn => ?_
  obtain ⟨e, he⟩ := s.exists_grows above (h.kinds n (hc.mem_children_iff_mem_nodes.1 hn).1)
  rw [(branch?_eq_some_iff hc ha hn).2 ⟨rfl, he⟩, Option.map_some, he.name_eq]
  rfl

/-- Below any groups the tree can be written, with the aliases spelled by path. -/
theorem writable_forestBelow {p : Option NodeId} {above : List Node} (ha : s.Around p above)
    {i : Option TokenType} (hi : ∀ n ∈ s.children p, s.inheritedType n = i) :
    ForestWritable i (forestRespelled s.spell (s.forestBelow (above.map Node.id) p)) := by
  rw [forestWritable_iff, forestRespelled_eq_map, List.forall_mem_map, List.map_map]
  constructor
  · rintro ⟨order, e⟩ he
    obtain ⟨n, hn, -, hgrows⟩ := (mem_forestBelow_iff hc ha).1 he
    have hmem := (hc.mem_children_iff_mem_nodes.1 hn).1
    have hin := hi n hn
    obtain ⟨t, ht, rfl⟩ | ⟨g, hg, rfl⟩ := hgrows
    · have hname : n.name = t.name := by
        rw [Node.name, ht]
        rfl
      refine ⟨?_, hin ▸ h.readable_respell hc hmem ht⟩
      rw [← hname]
      exact (h.named n hmem).symm.imp_left fun hroot => hroot.2.1
    · refine ⟨Node.name_of_group hg ▸ h.valid_of_group hmem hg, ?_⟩
      have hlt : s.unvisited ((n :: above).map Node.id) < s.unvisited (above.map Node.id) :=
        unvisited_cons_lt (ha.fresh hc hn hg).1 (ha.fresh hc hn hg).2
      refine writable_forestBelow (ha.child hc hn hg) fun m hm => ?_
      obtain ⟨hstored, rfl⟩ := hc.mem_children_iff.1 hn
      obtain ⟨hstored', hp⟩ := hc.mem_children_iff.1 hm
      rw [Around.inheritedType_child hc hstored' hp hstored hg ha, hin]
  · have hnames := h.map_name_forestBelow hc ha
    have hnodup := h.toPlain.distinctNames.nodup_names_children hc p
    rw [← hnames] at hnodup
    simpa only [Function.comp_def, Entry.name_respell] using hnodup
termination_by s.unvisited (above.map Node.id)

omit h in
/-- The tokens of the tree are tokens of the store. -/
theorem exists_node_of_mem_forestTokens {p : Option NodeId} {above : List Node}
    (ha : s.Around p above) {x : NodeId × Token}
    (hx : x ∈ forestTokens (s.forestBelow (above.map Node.id) p)) :
    ∃ n ∈ s.nodes, n.id = x.1 ∧ n.content = .token x.2 := by
  obtain ⟨⟨order, e⟩, he, hx⟩ := mem_forestTokens.1 hx
  obtain ⟨n, hn, -, ⟨t, ht, rfl⟩ | ⟨g, hg, rfl⟩⟩ := (mem_forestBelow_iff hc ha).1 he
  · rw [List.mem_singleton.1 hx]
    exact ⟨n, (hc.mem_children_iff_mem_nodes.1 hn).1, rfl, ht⟩
  · have hlt : s.unvisited ((n :: above).map Node.id) < s.unvisited (above.map Node.id) :=
      unvisited_cons_lt (ha.fresh hc hn hg).1 (ha.fresh hc hn hg).2
    exact exists_node_of_mem_forestTokens (ha.child hc hn hg) hx
termination_by s.unvisited (above.map Node.id)

/-- The tree of the store, with its aliases spelled by path, can be the top of a document. -/
theorem rootWritable : RootWritable (forestRespelled s.spell (s.forest none)) := by
  refine ⟨h.writable_forestBelow hc .root fun n hn => inheritedType_of_root hc hn, ?_⟩
  rw [forestRespelled_eq_map, List.forall_mem_map]
  rintro ⟨order, e⟩ he
  obtain ⟨n, hn, -, hgrows⟩ := (mem_forestBelow_iff hc .root).1 he
  obtain ⟨hmem, hp⟩ := hc.mem_children_iff_mem_nodes.1 hn
  rw [Entry.name_respell, hgrows.name_eq]
  rcases h.named n hmem with hv | ⟨-, -, hnot⟩
  · exact hv.ne_root
  · exact absurd hp hnot

/-- The store is written without fail. -/
theorem write_eq_ok (minimal : Bool) : Tree.write minimal s =
    .ok (.object (forestMembers minimal none (forestRespelled s.spell (s.forest none)))) := by
  refine writeBelow_eq_ok (h.rootWritable hc).forest fun x hx ref href => ?_
  obtain ⟨n, hn, hid, hx⟩ := exists_node_of_mem_forestTokens hc .root hx
  obtain ⟨m, hm⟩ := h.exists_target hc hn hx href
  exact hid ▸ aliasText_of_target hm

end Store.Exportable

/-! ## What is read -/

section

variable (scheme : IdScheme) {es : Forest Pointer.Path} (h : RootReadable es)

include h

theorem nodup_ids_scheduled_forestGrove : ((forestGrove [] es).scheduled scheme).ids.Nodup :=
  Grove.nodup_ids_scheduled scheme (nodup_ids_forestGrove es h.forest)

theorem keyed_scheduled_forestGrove : ((forestGrove [] es).scheduled scheme).Keyed :=
  Grove.keyed_scheduled scheme (keyed_forestGrove es h.forest)

theorem nodes_ofNodes_forestNodes :
    (Store.ofNodes ((forestNodes scheme none [] 0 es).map (·.node))).nodes =
      (forestNodes scheme none [] 0 es).map (·.node) := by
  rw [← nodes_scheduled_forestGrove]
  exact Store.nodes_ofNodes (Grove.nodup_nodes (nodup_ids_scheduled_forestGrove scheme h))

/-- The nodes of a tree that was read make a plain store. -/
theorem plain_ofNodes_forestNodes :
    (Store.ofNodes ((forestNodes scheme none [] 0 es).map (·.node))).Plain := by
  rw [← nodes_scheduled_forestGrove]
  exact Grove.plain_ofNodes (Grove.plain_scheduled scheme (plain_forestGrove es h.forest.writable))
    (nodup_ids_scheduled_forestGrove scheme h) (keyed_scheduled_forestGrove scheme h)

/-- The names in a tree that was read lead through the store of its nodes in the same way. -/
theorem mirrors_ofNodes_forestNodes : (forestNamespace Pointer.Path).Mirrors es
    (Store.ofNodes ((forestNodes scheme none [] 0 es).map (·.node))).asNamespace none
    fun _ c d => d = c := by
  have hplain := plain_ofNodes_forestNodes scheme h
  rw [← nodes_scheduled_forestGrove] at hplain ⊢
  have hn := nodup_ids_scheduled_forestGrove scheme h
  have hk := keyed_scheduled_forestGrove scheme h
  have hforest := Store.forest_eq_forest (Grove.within_ofNodes hn hk) (Grove.roots_ofNodes hn hk)
  have hstore := Store.mirrors_forest (Store.reachable_ofNodes _).consistent hplain.kinds
  have htags := mirrors_untagged ((forestGrove [] es).scheduled scheme).forest
  rw [untagged_forest_scheduled, untagged_forest_forestGrove] at htags
  rw [hforest] at hstore
  have hgrove := (mirrors_untagged es).trans htags.symm (E := fun _ c d => d = c)
    fun _ _ _ _ hcd hed => hed.symm.trans hcd
  exact hgrove.trans hstore.symm fun _ _ _ _ hcd hed => hed.symm.trans hcd

end

/-! ## There and back -/

namespace Store.Exportable

variable {s : Store} (h : s.Exportable) (hc : s.Consistent)

include h hc

/-- What is read of the written tree. -/
theorem readable_forestExported (minimal : Bool) :
    RootReadable (forestExported minimal s.spell [] none (s.forest none)) :=
  readable_forestRebuilt minimal [] (readable_forestTidied (h.rootWritable hc))

/-- The store that is read mirrors the one that was written. -/
theorem mirrored (minimal : Bool) (scheme : IdScheme) : Mirrored minimal s
    (Store.ofNodes ((forestNodes scheme none [] 0
      (forestExported minimal s.spell [] none (s.forest none))).map (·.node))) where
  consistent := hc
  mirror_consistent := (reachable_ofNodes _).consistent
  plain := h.toPlain
  mirror_plain := plain_ofNodes_forestNodes scheme (h.readable_forestExported hc minimal)
  fit := h.fit
  groups := h.groups
  mirrors := by
    have hread := mirrors_ofNodes_forestNodes scheme (h.readable_forestExported hc minimal)
    have hexport := (mirrors_forest hc h.kinds).trans
      (mirrors_forestExported minimal s.spell [] (s.forest none))
      (E := fun j c d => d = c.exported minimal s.spell j)
      fun _ _ _ _ hcd hde => hcd ▸ hde
    exact hexport.trans hread fun _ _ _ _ hcd hde => hde.trans hcd

end Store.Exportable

namespace Tree

/--
**Export is faithful.** A store of groups and tokens, however it was made, with
names that can stand in a document and nothing that does not resolve, is written
without fail. With minimal types or without, and whatever ids the reader makes,
the document is read without an issue. Each token has a path that leads to it,
and every path finds in the one store what it finds in the other: a token that
resolves to the same type and value, or nothing.
-/
theorem export_resolves (minimal : Bool) (scheme : IdScheme) (options : ReadOptions) {s : Store}
    (hs : s.Reachable) (h : s.Exportable) :
    ∃ written, write minimal s = .ok written ∧ (parse scheme options written).isClean ∧
      (∀ n ∈ s.nodes, n.isToken →
        ∃ dotted, s.path? n.id = some dotted ∧ s.tokenAt? dotted none = some n) ∧
      ∀ dotted,
        ((Store.ofNodes (parse scheme options written).nodes).tokenAt? dotted none).map
          (fun m => (Store.ofNodes (parse scheme options written).nodes).resolve m.id) =
        (s.tokenAt? dotted none).map fun n => s.resolve n.id := by
  have hc := hs.consistent
  have hmirrored := h.mirrored hc minimal scheme
  have hnodes := nodes_ofNodes_forestNodes scheme (h.readable_forestExported hc minimal)
  have hparse : parse scheme options
      (.object (forestMembers minimal none (forestRespelled s.spell (s.forest none)))) =
      Output.ofPlaced options (forestNodes scheme none [] 0
        (forestExported minimal s.spell [] none (s.forest none))) [] := by
    rw [parse, read_forestMembers_tidied options minimal (h.rootWritable hc)]
    rfl
  refine ⟨_, h.write_eq_ok hc minimal, ?_, fun n hn htoken => ?_, fun dotted => ?_⟩
  · have hissues := referenceIssues_eq_nil_iff.2 fun m hm t ht _ =>
      hmirrored.resolvable h.resolvable m (hnodes.symm ▸ hm) (Option.isSome_iff_exists.2 ⟨t, ht⟩)
    rw [hparse, Output.isClean, Output.ofPlaced, hissues, ite_self]
    rfl
  · obtain ⟨dotted, hpath, hfound⟩ := h.toPlain.tokenAt?_path hc h.fit hn htoken
    exact ⟨dotted, hpath, hfound none⟩
  · rw [hparse]
    exact hmirrored.map_tokenAt? h.resolvable dotted none

/-- Two pixels. -/
def twoPixels : Dimension := ⟨.integer 2, .px⟩

/-- A group whose own token stands behind another one with the same key, and
tokens that refer by id to the group: with the whole value, and in a field. -/
def spacedNodes : List Node :=
  let token (id : String) (parent : Option NodeId) (name : String) (type : Option TokenType)
      (value : TokenValue) : Node := ⟨⟨id⟩, parent, "a0", .token ⟨name, .none, type, value⟩⟩
  [⟨⟨"space"⟩, none, "a1", .group ⟨"space", .none, some .dimension⟩⟩,
    token "small" (some ⟨"space"⟩) "small" none (.literal (.dimension twoPixels)),
    token "own" (some ⟨"space"⟩) rootTokenName (some .dimension) (.aliasTo (.id ⟨"small"⟩)),
    token "gap" none "gap" none (.aliasTo (.id ⟨"space"⟩)),
    token "dash" none "dash" (some .strokeStyle)
      (.literal (.strokeStyle (.dashed [.aliasTo (.id ⟨"space"⟩)] .round)))]

theorem exportable_spacedNodes : (Store.ofNodes spacedNodes).Exportable := by
  have hnodes : (Store.ofNodes spacedNodes).nodes = spacedNodes := by decide +kernel
  have hspace : (Store.ofNodes spacedNodes).Around (some ⟨"space"⟩) [spacedNodes.head (by decide)] :=
    .up (by decide +kernel) (by decide) .root
  refine ⟨⟨?_, ?_, ?_⟩, ?_, ?_, ?_⟩
  · rw [hnodes]
    decide
  · rw [hnodes]
    have hparent : ∀ n ∈ spacedNodes, n.parent = none ∨ n.parent = some ⟨"space"⟩ := by decide
    intro n hn
    rcases hparent n hn with hp | hp <;> rw [hp]
    · exact ⟨_, .root⟩
    · exact ⟨_, hspace⟩
  · rw [hnodes]
    decide
  · rw [hnodes]
    unfold Name.Valid
    decide
  · rw [hnodes]
    intro n hn t lit ht hlit
    simp only [spacedNodes, List.mem_cons, List.not_mem_nil, or_false] at hn
    rcases hn with rfl | rfl | rfl | rfl | rfl <;> cases ht <;> cases hlit
    · exact ⟨some .dimension, twoPixels.toJson, .dimension twoPixels, by decide +kernel, rfl⟩
    · refine ⟨some .strokeStyle, .object [("dashArray", .array [.string "{space}"]),
        ("lineCap", .string "round")], .strokeStyle (.dashed [.aliasTo (.path "space")] .round),
        by decide +kernel, by decide +kernel⟩
  · have hresolve : ∀ n ∈ (Store.ofNodes spacedNodes).nodes, n.isToken →
        ((Store.ofNodes spacedNodes).resolve n.id).isOk := by
      decide +kernel
    intro n hn htoken
    have hok := hresolve n hn htoken
    cases hr : (Store.ofNodes spacedNodes).resolve n.id with
    | ok r => exact ⟨r, rfl⟩
    | error e =>
      rw [hr] at hok
      cases hok

/-- The paths that the aliases are spelled by find their targets again among new ids and keys. -/
theorem export_resolves_spacedNodes :
    (Store.ofNodes spacedNodes).Reachable ∧ (Store.ofNodes spacedNodes).Exportable ∧
    ∃ written, write true (Store.ofNodes spacedNodes) = .ok written ∧
      (parse (.sequential "n") .all written).isClean ∧
      ∀ dotted,
        ((Store.ofNodes (parse (.sequential "n") .all written).nodes).tokenAt? dotted none).map
          (fun m =>
            (Store.ofNodes (parse (.sequential "n") .all written).nodes).resolve m.id) =
        ((Store.ofNodes spacedNodes).tokenAt? dotted none).map fun n =>
          (Store.ofNodes spacedNodes).resolve n.id := by
  have hreachable := Store.reachable_ofNodes spacedNodes
  obtain ⟨written, hwritten, hclean, -, hpaths⟩ :=
    export_resolves true (.sequential "n") .all hreachable exportable_spacedNodes
  exact ⟨hreachable, exportable_spacedNodes, written, hwritten, hclean, hpaths⟩

end Tree

end DesignTokens
