/-
What can be said of each node that was read, its content and the type that comes
down to it. Readers thread this type down through groups; in the store of the
nodes it is found from the other end, up along the parents
(`Grove.typed_ofNodes`). So what holds of every entry that a reader can give,
under the type at hand, holds of the nodes of a document
(`Tree.each_parse`, `Resolver.each_parse`).
-/
import DesignTokens.Proofs.Document.Forested
import DesignTokens.Proofs.Document.Resolver.Reading

namespace DesignTokens

variable {R : Option TokenType → Content → Prop}

namespace Grove

/-- Every type that comes down to a content stands in a relation to it. -/
def Each (R : Option TokenType → Content → Prop) (inherited : Option TokenType) (g : Grove) : Prop :=
  ∀ x ∈ g.contents inherited, R x.2 x.1

section

variable {inherited : Option TokenType}

theorem each_nil : nil.Each R inherited :=
  fun _ hx => nomatch hx

theorem each_node {id : NodeId} {order : String} {c : Content} {below next : Grove}
    (hc : R inherited c) (hb : below.Each R (c.passed inherited)) (hn : next.Each R inherited) :
    (Grove.node id order c below next).Each R inherited := by
  intro x hx
  rcases List.mem_cons.1 hx with he | hx
  · rw [he]
    exact hc
  rcases List.mem_append.1 hx with hx | hx
  · exact hb x hx
  · exact hn x hx

theorem Each.scheduled {g : Grove} (h : g.Each R inherited) (scheme : IdScheme) :
    (g.scheduled scheme).Each R inherited := by
  rwa [Each, contents_scheduled]

end

/-- In the store of a grove the type that comes down to a node is the one that it inherits. -/
theorem Each.of_mem_nodes {g : Grove} (h : g.Each R none) (hn : g.ids.Nodup) {n : Node}
    (hmem : n ∈ g.nodes none) : R ((Store.ofNodes (g.nodes none)).inheritedType n) n.content := by
  refine h (n.content, _) ?_
  rw [← map_content_typed none, typed_ofNodes hn, List.map_map]
  exact List.mem_map_of_mem hmem

end Grove

/-! ## Trees -/

mutual

theorem Entry.each_grove (hentry : ∀ i (e : Entry Pointer.Path), e.Readable i → R i e.content)
    {names : List String} {order : String} {next : Grove} {inherited : Option TokenType}
    (hnext : next.Each R inherited) : (e : Entry Pointer.Path) → e.Readable inherited →
    (e.grove names order next).Each R inherited
  | .token tag t, h => by
    rw [Entry.grove]
    exact Grove.each_node (hentry _ (.token tag t) h) Grove.each_nil hnext
  | .group tag g children, h => by
    rw [Entry.grove]
    exact Grove.each_node (hentry _ (.group tag g children) h)
      (each_forestGrove hentry children h.2) hnext

/-- The contents of a forest that was read. -/
theorem each_forestGrove (hentry : ∀ i (e : Entry Pointer.Path), e.Readable i → R i e.content)
    {names : List String} {inherited : Option TokenType} :
    (es : List (String × Entry Pointer.Path)) → ForestReadable inherited es →
    (forestGrove names es).Each R inherited
  | [], _ => Grove.each_nil
  | (_, e) :: es, h => Entry.each_grove hentry (each_forestGrove hentry es h.2.2) e h.1

end

section

variable (hentry : ∀ i (e : Entry Pointer.Path), e.Readable i → R i e.content)

include hentry

/-- What holds of every entry that can be read holds of the nodes of a tree document. -/
theorem Tree.each_parse (scheme : IdScheme) (options : ReadOptions) {doc : Json}
    (hdoc : doc.WellFormed) : ∀ n ∈ (Tree.parse scheme options doc).nodes,
      R ((Store.ofNodes (Tree.parse scheme options doc).nodes).inheritedType n) n.content := by
  have hes : ForestReadable none (Tree.read options doc).value := (Tree.readable_read hdoc).forest
  have heach : (forestGrove [] (Tree.read options doc).value).Each R none :=
    each_forestGrove hentry _ hes
  have hids : (forestGrove [] (Tree.read options doc).value).ids.Nodup := nodup_ids_forestGrove _ hes
  have hnodes : (Tree.parse scheme options doc).nodes = _ :=
    (nodes_scheduled_forestGrove scheme (Tree.read options doc).value).symm
  rw [hnodes]
  exact fun n hn => (heach.scheduled scheme).of_mem_nodes (Grove.nodup_ids_scheduled scheme hids) hn

/-! ## Resolver documents -/

namespace Resolver

variable (hother : ∀ i c, c.isEntry = false → R i c)

include hother

theorem each_contextsGrove {names : List String} {cs : List Context} (h : ContextsReadable cs) :
    (contextsGrove names cs).Each R none := by
  induction cs with
  | nil => exact Grove.each_nil
  | cons c cs ih =>
    have hentries := (h.entries c (List.mem_cons_self ..)).forest
    rw [contextsGrove]
    exact Grove.each_node (hother _ _ rfl) (each_forestGrove hentry c.entries hentries) (ih h.tail)

theorem each_itemsGrove {items : List Item} (h : ItemsSound items) :
    (itemsGrove items).Each R none := by
  induction items with
  | nil => exact Grove.each_nil
  | cons item items ih =>
    have hitem := h.each item (List.mem_cons_self ..)
    cases item with
    | set order place tokens entries =>
      rw [itemsGrove, Item.grove]
      exact Grove.each_node (hother _ _ rfl) (each_forestGrove hentry entries hitem.forest) (ih h.tail)
    | modifier order place choice contexts =>
      rw [itemsGrove, Item.grove]
      exact Grove.each_node (hother _ _ rfl) (each_contextsGrove hentry hother hitem) (ih h.tail)

/-- What holds of every entry that can be read, and of all other contents, holds of the nodes of a
resolver document. -/
theorem each_parse (scheme : IdScheme) (options : ReadOptions) {doc : Json} (hdoc : doc.WellFormed) :
    ∀ n ∈ (Resolver.parse scheme options doc).2.nodes,
      R ((Store.ofNodes (Resolver.parse scheme options doc).2.nodes).inheritedType n) n.content := by
  have hitems := (sound_read options hdoc).1
  have heach := (each_itemsGrove hentry hother hitems).scheduled scheme
  have hids := Grove.nodup_ids_scheduled scheme
    ((pathed_itemsGrove _).nodup_ids_of_orderly (orderly_itemsGrove hitems))
  have hnodes : (Resolver.parse scheme options doc).2.nodes = _ :=
    (nodes_scheduled_itemsGrove scheme (read options doc).value.items).symm
  rw [hnodes]
  exact fun n hn => heach.of_mem_nodes hids hn

end Resolver

end

/-! ## Names -/

/-- The name of an entry that can be read is fit for a path. -/
theorem Entry.Readable.fit {i : Option TokenType} {e : Entry Pointer.Path} (h : e.Readable i) :
    Name.Fit e.content.name := by
  rw [Entry.name_content]
  rcases h.writable.name_cases with hroot | hvalid
  · exact hroot ▸ Name.fit_root
  · exact hvalid.fit

/-- The names of groups and tokens in a document are fit for a path. -/
theorem fit_of_mem_parse (scheme : IdScheme) (options : ReadOptions) {doc : Json}
    (hdoc : doc.WellFormed) :
    (∀ n ∈ (Tree.parse scheme options doc).nodes, n.content.isEntry → Name.Fit n.name) ∧
    (∀ n ∈ (Resolver.parse scheme options doc).2.nodes, n.content.isEntry → Name.Fit n.name) := by
  let R (_ : Option TokenType) (c : Content) : Prop := c.isEntry → Name.Fit c.name
  have hentry : ∀ i (e : Entry Pointer.Path), e.Readable i → R i e.content := fun _ _ he _ => he.fit
  refine ⟨Tree.each_parse hentry scheme options hdoc,
    Resolver.each_parse hentry (fun i c hc hc' => ?_) scheme options hdoc⟩
  rw [hc] at hc'
  cases hc'

end DesignTokens
