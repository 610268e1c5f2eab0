/-
Resolver documents, there and back. A document with which nothing is wrong is
read, its nodes are written, and what is written is read again: nothing is wrong
with it, the nodes are preserved, and from then on the document stays as it is
(`Resolver.round_trip_of_clean`). The many sources of a set have become one, and
the references among them are gone; no node shows this.
-/
import DesignTokens.Proofs.Document.Preserved
import DesignTokens.Proofs.Document.Resolver.Reading
import DesignTokens.Proofs.Document.Resolver.Rebuilt
import DesignTokens.Proofs.Document.Resolver.Written

namespace DesignTokens.Resolver

/-- What reading a written document gives. -/
theorem parse_documentJson (minimal : Bool) (info : ResolverInfo) {items : List Item}
    (h : ItemsReadable items) :
    parse .path .all (documentJson minimal info items) = (info,
      ⟨(itemNodes .path 0 (itemsRebuilt minimal 0 (OrderKey.initial items.length) items)).map (·.node),
        referenceIssues
          (itemNodes .path 0 (itemsRebuilt minimal 0 (OrderKey.initial items.length) items))⟩) := by
  rw [parse, read_documentJson .all minimal info h]
  rfl

/--
**A resolver document with which nothing is wrong comes back.** Its objects
repeat no key, as in every document that is read from a text. What was read of
it is written without fail, with what the document says of itself. Nothing is
wrong with the written document; it says the same of itself; the nodes that are
read of it are those that were read before; and the second document that is
written is the first.
-/
theorem round_trip_of_clean {doc : Json} (h : doc.WellFormed)
    (hclean : (parse .path .all doc).2.isClean) :
    ∃ written, write true (Store.ofNodes (parse .path .all doc).2.nodes)
        (some (parse .path .all doc).1) = .ok written ∧
      (parse .path .all written).2.isClean ∧
      (parse .path .all written).1 = (parse .path .all doc).1 ∧
      (parse .path .all doc).2.Preserved (parse .path .all written).2 ∧
      write true (Store.ofNodes (parse .path .all written).2.nodes)
        (some (parse .path .all written).1) = .ok written := by
  have hissues : (read .all doc).issues ++
      referenceIssues (itemNodes .path 0 (read .all doc).value.items) = [] :=
    List.isEmpty_iff.1 hclean
  obtain ⟨hread, hreferences⟩ := List.append_eq_nil_iff.1 hissues
  have hitems := readable_read h hread
  have hbefore : (parse .path .all doc).2 =
      ⟨(itemNodes .path 0 (read .all doc).value.items).map (·.node), (parse .path .all doc).2.issues⟩ :=
    rfl
  generalize (read .all doc).value.items = items at hreferences hitems hbefore
  generalize (parse .path .all doc).1 = info
  have hl := OrderKey.length_initial items.length
  have hre := readable_itemsRebuilt true 0 hitems
  have hafter := parse_documentJson true info hitems
  have hpreserved : (parse .path .all doc).2.Preserved
      (parse .path .all (documentJson true info items)).2 := by
    rw [hbefore, hafter]
    simp only [← map_node_itemNodes]
    exact Grove.preserved (nodup_ids_itemsGrove hitems) (nodup_ids_itemsGrove hre)
      (keyed_itemsGrove hitems) (keyed_itemsGrove hre) (writtenAs_itemsRebuilt hl) _ _
  refine ⟨documentJson true info items, ?_, ?_, by rw [hafter], hpreserved, ?_⟩
  · rw [hbefore, ← map_node_itemNodes 0]
    exact write_ofNodes_itemsGrove true info hitems
  · rw [hafter, hbefore] at hpreserved
    rw [hafter]
    exact List.isEmpty_iff.2 (hpreserved.referenceIssues_eq_nil hreferences)
  · rw [hafter, ← map_node_itemNodes 0]
    show write true (Store.ofNodes ((itemsGrove _).nodes none)) (some info) = _
    rw [write_ofNodes_itemsGrove true info hre, documentJson, documentJson,
      map_toJson_itemsRebuilt hl hitems.each]

/-- A set of two sources, the second of which adds to a group of the first, and a modifier. -/
def themed : Json :=
  .object [("version", .string resolverVersion), ("name", .string "theme"),
    ("resolutionOrder", .array [
      .object [("type", .string "set"), ("name", .string "base"), ("sources", .array [
        .object [("font", .object [(Key.type, .string "fontFamily"),
          ("body", .object [(Key.value, .string "Inter")])])],
        .object [("font", .object [("head", .object [(Key.type, .string "fontFamily"),
          (Key.value, .string "{font.body}")])])]])],
      .object [("type", .string "modifier"), ("name", .string "mode"), ("default", .string "dark"),
        ("contexts", .object [("light", .array [.object []]), ("dark", .array [.object []])])]])]

theorem wellFormed_themed : themed.WellFormed := by
  simp [themed, Json.WellFormed, Json.WellFormedMembers, Json.WellFormedItems, Dict.keys, Key.type,
    Key.value]

theorem round_trip_themed : themed.WellFormed ∧ (parse .path .all themed).2.isClean ∧
    ∃ written, write true (Store.ofNodes (parse .path .all themed).2.nodes)
        (some (parse .path .all themed).1) = .ok written ∧
      (parse .path .all written).2.isClean ∧
      (parse .path .all written).1 = (parse .path .all themed).1 ∧
      (parse .path .all themed).2.Preserved (parse .path .all written).2 ∧
      write true (Store.ofNodes (parse .path .all written).2.nodes)
        (some (parse .path .all written).1) = .ok written :=
  have hclean : (parse .path .all themed).2.isClean := by decide +kernel
  ⟨wellFormed_themed, hclean, round_trip_of_clean wellFormed_themed hclean⟩

end DesignTokens.Resolver
