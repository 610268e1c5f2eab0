/-
The nodes of a resolver document are a forest, whatever the document says, and
with those of tree documents (`forested_of_parse`): what the readers leave out
takes with it all that is below it, and its order key.
-/
import DesignTokens.Document.Tree.Basic
import DesignTokens.Proofs.Document.Resolver.Reading
import DesignTokens.Proofs.Document.Tree.Forested

namespace DesignTokens

namespace Resolver

/-! ## Groves of items -/

theorem fits_contextsGrove (names : List String) (cs : List Context) :
    (contextsGrove names cs).Fits Content.isContext := by
  induction cs with
  | nil => trivial
  | cons c cs ih => exact ⟨rfl, fits_forestGrove (names ++ [c.name]) c.entries, ih⟩

theorem fits_itemsGrove (items : List Item) : (itemsGrove items).Fits Content.isItem := by
  induction items with
  | nil => trivial
  | cons item items ih =>
    cases item with
    | set order place tokens entries => exact ⟨rfl, fits_forestGrove [tokens.name] entries, ih⟩
    | modifier order place choice contexts =>
      exact ⟨rfl, fits_contextsGrove [choice.name] contexts, ih⟩

theorem accepted_contextsGrove (names : List String) {cs : List Context}
    (h : ∀ c ∈ cs, OrderKey.Accepted c.order ∧ ForestAccepted c.entries) :
    (contextsGrove names cs).Accepted := by
  induction cs with
  | nil => trivial
  | cons c cs ih =>
    obtain ⟨⟨horder, hentries⟩, hcs⟩ := List.forall_mem_cons.1 h
    exact ⟨horder, accepted_forestGrove c.entries hentries, ih hcs⟩

theorem accepted_itemsGrove {items : List Item}
    (h : ∀ item ∈ items, OrderKey.Accepted item.order ∧ item.Accepted) :
    (itemsGrove items).Accepted := by
  induction items with
  | nil => trivial
  | cons item items ih =>
    obtain ⟨⟨horder, hitem⟩, hitems⟩ := List.forall_mem_cons.1 h
    cases item with
    | set order place tokens entries =>
      exact ⟨horder, accepted_forestGrove entries hitem, ih hitems⟩
    | modifier order place choice contexts =>
      exact ⟨horder, accepted_contextsGrove [choice.name] hitem, ih hitems⟩

theorem formed_itemsGrove {items : List Item} (hs : ItemsSound items)
    (ha : ∀ item ∈ items, OrderKey.Accepted item.order ∧ item.Accepted) :
    (itemsGrove items).Formed Content.isItem :=
  ⟨orderly_itemsGrove hs, fits_itemsGrove items, accepted_itemsGrove ha⟩

/-- The nodes of a resolver document are a forest with sets and modifiers at the top. -/
theorem forested_parse (scheme : IdScheme) (options : ReadOptions) {doc : Json}
    (hdoc : doc.WellFormed) :
    Forested Content.isItem (Resolver.parse scheme options doc).2.nodes := by
  obtain ⟨hsound, haccepted⟩ := sound_read options hdoc
  have hforested := (formed_itemsGrove hsound haccepted).forested_scheduled
    (pathed_itemsGrove _) scheme
  rwa [nodes_scheduled_itemsGrove] at hforested

end Resolver

/-! ## Documents -/

/--
**What is read is a forest in reading order.** Under either scheme of ids and
with any options, ids are distinct; a parent comes before what it holds, and may
hold it; at the top stand groups and tokens in a tree document, sets and
modifiers in a resolver document; siblings have distinct names, and keys that
ascend and may be given as bounds. Keys for siblings never run out, so that none
is left out for want of one.
-/
theorem forested_of_parse (scheme : IdScheme) (options : ReadOptions) {doc : Json}
    (hdoc : doc.WellFormed) :
    Forested Content.isEntry (Tree.parse scheme options doc).nodes ∧
    Forested Content.isItem (Resolver.parse scheme options doc).2.nodes ∧
    ∀ {α : Type} (siblings : List α),
      OrderKey.keysWithin none none siblings.length = .ok (OrderKey.initial siblings.length) ∧
      ((OrderKey.initial siblings.length).zip siblings).map Prod.snd = siblings := by
  refine ⟨Tree.forested_parse scheme options hdoc, Resolver.forested_parse scheme options hdoc,
    fun siblings => ⟨OrderKey.keysWithin_eq_initial _, List.map_snd_zip ?_⟩⟩
  exact Nat.le_of_eq (OrderKey.length_initial _).symm

/-- A group with a value of its own, and a child that is no entry before one that is. -/
def gapped : Json :=
  .object [("size", .object [(Key.type, .string "number"), ("odd", .number (.integer 3)),
    (Key.value, .number (.integer 1)), ("ok", .object [(Key.value, .number (.integer 2))])])]

/-- A set of that group, an item that is none, and a modifier one of whose contexts is none. -/
def gappedItems : Json :=
  .object [("version", .string resolverVersion), ("resolutionOrder", .array [
    .object [("type", .string "set"), ("name", .string "s"), ("sources", .array [gapped])],
    .null,
    .object [("type", .string "modifier"), ("name", .string "m"),
      ("contexts", .object [("dim", .null), ("lit", .array [gapped])])]])]

/-- What is left out is not missed. -/
theorem forested_gapped :
    (gapped.WellFormed ∧ (Tree.parse .path .all gapped).nodes.map (fun n => n.id.text) =
      ["/size", "/size/$root", "/size/ok"] ∧
      Forested Content.isEntry (Tree.parse .path .all gapped).nodes) ∧
    (gappedItems.WellFormed ∧
      (Resolver.parse (.sequential "n") .all gappedItems).2.nodes.map (fun n => n.name) =
        ["s", "size", "$root", "ok", "m", "lit", "size", "$root", "ok"] ∧
      Forested Content.isItem (Resolver.parse (.sequential "n") .all gappedItems).2.nodes) := by
  have hgapped : gapped.WellFormed := by
    simp [gapped, Json.WellFormed, Json.WellFormedMembers, Key.type, Key.value]
  have hitems : gappedItems.WellFormed := by
    simp [gappedItems, Json.WellFormed, Json.WellFormedMembers, Json.WellFormedItems, hgapped]
  exact ⟨⟨hgapped, by decide +kernel, (forested_of_parse .path .all hgapped).1⟩,
    ⟨hitems, by decide +kernel, (forested_of_parse (.sequential "n") .all hitems).2.1⟩⟩

end DesignTokens
