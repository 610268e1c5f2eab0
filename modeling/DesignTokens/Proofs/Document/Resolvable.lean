/-
A document without issues resolves. The reader threads the type of the groups
down to each value, and checks a literal against it at once; only references
are left to be checked among the nodes. Resolution looks for the type from the
other end, up along the parents of the stored node. The two are the same
(`Grove.Each.of_mem_nodes`), so a literal that was read has the type under which
it was read, and needs no check.
-/
import DesignTokens.Proofs.Document.Contents
import DesignTokens.Proofs.Document.Preserved
import DesignTokens.Proofs.Value.Traversal

namespace DesignTokens

/-- Every token of the store resolves. -/
def Store.Resolvable (s : Store) : Prop := ∀ n ∈ s.nodes, n.isToken → ∃ r, s.resolve n.id = .ok r

/-! ## Values under the types that come down -/

/-- A token's value can be read under the type that it declares, or else comes down to it. -/
def Content.Read (inherited : Option TokenType) : Content → Prop
  | token t => t.value.Readable (t.declaredType.or inherited)
  | _ => True

theorem Content.read_of_not_entry {inherited : Option TokenType} {c : Content}
    (h : c.isEntry = false) : c.Read inherited := by
  cases c with
  | token t => cases h
  | _ => trivial

theorem Entry.Readable.read {inherited : Option TokenType} {e : Entry Pointer.Path}
    (h : e.Readable inherited) : e.content.Read inherited := by
  cases e with
  | token tag t => exact h.2
  | group => trivial

/-- So can those of all tokens of a grove, below groups that pass down a type. -/
abbrev Grove.Read (inherited : Option TokenType) (g : Grove) : Prop :=
  g.Each (fun i c => c.Read i) inherited

/-- The values of a forest that was read. -/
theorem read_forestGrove {names : List String} {inherited : Option TokenType}
    (es : List (String × Entry Pointer.Path)) (h : ForestReadable inherited es) :
    (forestGrove names es).Read inherited :=
  each_forestGrove (fun _ _ he => he.read) es h

theorem Resolver.read_itemsGrove {items : List Item} (h : ItemsSound items) :
    (itemsGrove items).Read none :=
  each_itemsGrove (fun _ _ he => he.read) (fun _ _ hc => Content.read_of_not_entry hc) h

/-! ## Literals without aliases -/

/-- A literal of the token's own type that holds no alias is what the token resolves to. -/
theorem Store.resolve_literal {s : Store} {n : Node} {t : Token} {lit : Literal}
    (hn : s.node? n.id = some n) (ht : n.content = .token t) (hv : t.value = .literal lit)
    (hown : s.ownType n = some lit.type) (ha : lit.aliases = []) :
    s.resolve n.id = .ok ⟨lit.type, lit⟩ := by
  refine (resolveFrom_literal_eq_ok_iff hn ht List.not_mem_nil hv).2
    ⟨rfl, ownType_eq_some_iff.1 hown, ?_⟩
  rw [Literal.mapFields_of_aliases_eq_nil ha]
  rfl

/-- Nodes whose values were read resolve if those that hold references do. -/
theorem Grove.resolvable {g : Grove} (hn : g.ids.Nodup) (hread : g.Read none)
    {placed : List Placed} (hplaced : g.nodes none = placed.map (·.node))
    (hissues : referenceIssues placed = []) :
    (Store.ofNodes (placed.map (·.node))).Resolvable := by
  have hrefs := referenceIssues_eq_nil_iff.1 hissues
  rw [← hplaced] at hrefs ⊢
  have hnodes := Store.nodes_ofNodes (nodup_nodes hn)
  have hc := (Store.reachable_ofNodes (g.nodes none)).consistent
  intro n hmem htoken
  obtain ⟨t, ht⟩ := Option.isSome_iff_exists.1 htoken
  have hstored : (Store.ofNodes (g.nodes none)).node? n.id = some n :=
    hc.node?_eq_some_iff.2 ⟨hmem, rfl⟩
  rw [hnodes] at hmem
  cases ha : t.value.aliases.isEmpty with
  | false => exact hrefs n hmem t ht ha
  | true =>
    have hcontent : n.content = .token t := Store.token?_eq_some_iff.1 ht
    have hvalue := hread.of_mem_nodes hn hmem
    rw [hcontent] at hvalue
    obtain ⟨raw, hraw⟩ := hvalue
    cases hv : t.value with
    | aliasTo ref =>
      rw [hv] at ha
      cases ha
    | literal lit =>
      rw [hv] at ha hraw
      have htype := TokenValue.type_eq_of_ofJson hraw
      have hown : (Store.ofNodes (g.nodes none)).ownType n = some lit.type := by
        rw [← htype, Store.ownType, hcontent]
        rfl
      exact ⟨_, Store.resolve_literal hstored hcontent hv hown (List.isEmpty_iff.1 ha)⟩

/-! ## Documents -/

/--
**A document without issues resolves.** Under either scheme of ids, where
reading a tree document or a resolver document reports nothing, every token
resolves in the store of its nodes, also those that hold no reference.
-/
theorem resolvable_of_clean (scheme : IdScheme) {doc : Json} (hdoc : doc.WellFormed) :
    ((Tree.parse scheme .all doc).isClean →
      (Store.ofNodes (Tree.parse scheme .all doc).nodes).Resolvable) ∧
    ((Resolver.parse scheme .all doc).2.isClean →
      (Store.ofNodes (Resolver.parse scheme .all doc).2.nodes).Resolvable) := by
  constructor
  · intro hclean
    have hissues : (Tree.read .all doc).issues ++
        referenceIssues (forestNodes scheme none [] 0 (Tree.read .all doc).value) = [] :=
      List.isEmpty_iff.1 hclean
    have hforest : ForestReadable none (Tree.read .all doc).value := (Tree.readable_read hdoc).forest
    have hids : (forestGrove [] (Tree.read .all doc).value).ids.Nodup :=
      nodup_ids_forestGrove _ hforest
    exact Grove.resolvable (Grove.nodup_ids_scheduled scheme hids)
      ((read_forestGrove _ hforest).scheduled scheme)
      (nodes_scheduled_forestGrove scheme _) (List.append_eq_nil_iff.1 hissues).2
  · intro hclean
    have hissues : (Resolver.read .all doc).issues ++
        referenceIssues (Resolver.itemNodes scheme 0 (Resolver.read .all doc).value.items) = [] :=
      List.isEmpty_iff.1 hclean
    obtain ⟨hread, hrefs⟩ := List.append_eq_nil_iff.1 hissues
    have hitems := Resolver.readable_read hdoc hread
    have hids := Resolver.nodup_ids_itemsGrove hitems
    exact Grove.resolvable (Grove.nodup_ids_scheduled scheme hids)
      ((Resolver.read_itemsGrove hitems.sound).scheduled scheme)
      (Resolver.nodes_scheduled_itemsGrove scheme _) hrefs

/-- A type on top, a group with a value of its own below it, and a token further down. -/
def spaced : Json :=
  let gap : Json := .object [("value", .number (.integer 2)), ("unit", .string "px")]
  .object [("space", .object [(Key.type, .string "dimension"),
    ("wide", .object [(Key.value, gap), ("inner", .object [
      ("deep", .object [(Key.value, gap)])])])])]

/-- The same tree as the only source of a set. -/
def spacedSet : Json :=
  .object [("version", .string resolverVersion), ("resolutionOrder", .array [
    .object [("type", .string "set"), ("name", .string "s"), ("sources", .array [spaced])]])]

/-- Neither literal declares its type, and there is no reference to check. -/
theorem resolvable_spaced :
    spaced.WellFormed ∧ (Tree.parse (.sequential "n") .all spaced).isClean ∧
    (Store.ofNodes (Tree.parse (.sequential "n") .all spaced).nodes).Resolvable ∧
    spacedSet.WellFormed ∧ (Resolver.parse .path .all spacedSet).2.isClean ∧
    (Store.ofNodes (Resolver.parse .path .all spacedSet).2.nodes).Resolvable := by
  have hspaced : spaced.WellFormed := by
    simp [spaced, Json.WellFormed, Json.WellFormedMembers, Dict.keys, Key.type, Key.value]
  have hset : spacedSet.WellFormed := by
    refine ⟨by decide, trivial, ⟨⟨by decide, trivial, trivial, ⟨hspaced, trivial⟩, trivial⟩, trivial⟩,
      trivial⟩
  have hclean : (Tree.parse (.sequential "n") .all spaced).isClean := by decide +kernel
  have hcleanSet : (Resolver.parse .path .all spacedSet).2.isClean := by decide +kernel
  exact ⟨hspaced, hclean, (resolvable_of_clean (.sequential "n") hspaced).1 hclean,
    hset, hcleanSet, (resolvable_of_clean .path hset).2 hcleanSet⟩

end DesignTokens
