/-
Tree documents, there and back. Any document is read to some nodes and issues;
the nodes are written, and what is written is read again. The nodes are
preserved, nothing is reported but references that lead nowhere, and from then
on the document stays as it is (`Tree.round_trip`).
-/
import DesignTokens.Proofs.Document.Preserved
import DesignTokens.Proofs.Document.Tree.Reading
import DesignTokens.Proofs.Document.Tree.Rebuilt
import DesignTokens.Proofs.Document.Tree.Written

namespace DesignTokens

namespace Tree

variable {ι : Type}

/-- The nodes of a tree that can be read are written as its members. -/
theorem write_ofNodes_forestGrove (minimal : Bool) {es : List (String × Entry ι)}
    (h : ForestReadable none es) :
    write minimal (Store.ofNodes ((forestGrove [] es).nodes none)) =
      .ok (.object (forestMembers minimal none es)) := by
  have hn : (forestGrove [] es).ids.Nodup := nodup_ids_forestGrove es h
  have hk : (forestGrove [] es).Keyed := keyed_forestGrove es h
  exact writeBelow_of_within (Grove.within_ofNodes hn hk) (Grove.roots_ofNodes hn hk) h

/-- What reading a written document gives. -/
theorem parse_forestMembers (minimal : Bool) {es : List (String × Entry ι)}
    (h : RootReadable es) :
    parse .path .all (.object (forestMembers minimal none es)) =
      ⟨(forestGrove [] (forestRebuilt minimal [] none es)).nodes none,
        referenceIssues (forestNodes .path none [] 0 (forestRebuilt minimal [] none es))⟩ := by
  rw [parse, read_forestMembers .all minimal h, map_node_forestNodes none [] 0]
  rfl

/--
**A tree document comes back, whatever it says.** Its objects repeat no key, as
in every document that is read from a text. What was read of it is written
without fail. The nodes that are read of the written document are those
that were read before; an issue is reported only for a token that does not
resolve; and the second document that is written is the first.
-/
theorem round_trip {doc : Json} (h : doc.WellFormed) :
    ∃ written, write true (Store.ofNodes (parse .path .all doc).nodes) = .ok written ∧
      (parse .path .all doc).Preserved (parse .path .all written) ∧
      (parse .path .all written).OnlyUnresolved ∧
      write true (Store.ofNodes (parse .path .all written).nodes) = .ok written := by
  have hes : RootReadable (Tree.read .all doc).value := readable_read h
  have hbefore : parse .path .all doc =
      ⟨(forestGrove [] (Tree.read .all doc).value).nodes none, (parse .path .all doc).issues⟩ := by
    rw [map_node_forestNodes none [] 0]
    rfl
  generalize (Tree.read .all doc).value = es at hes hbefore
  have hafter := parse_forestMembers true hes
  have hre := readable_forestRebuilt true [] hes
  refine ⟨.object (forestMembers true none es), ?_, ?_, ?_, ?_⟩
  · rw [hbefore]
    exact write_ofNodes_forestGrove true hes.forest
  · rw [hbefore, hafter]
    exact Grove.preserved (nodup_ids_forestGrove es hes.forest)
      (nodup_ids_forestGrove _ hre.forest) (keyed_forestGrove es hes.forest)
      (keyed_forestGrove _ hre.forest)
      (writtenAs_forestRebuilt true [] [] none none es) _ _
  · rw [hafter, map_node_forestNodes none [] 0]
    exact onlyUnresolved_referenceIssues fun p hp => id_eq_format_zip_rebuilt es hp
  · rw [hafter, ← forestMembers_forestRebuilt true [] hes.forest]
    exact write_ofNodes_forestGrove true hre.forest

/-- A group with a value of its own, whose child repeats its type and closes a circle with it. -/
def circularTree : Json :=
  .object [("size", .object [(Key.type, .string "number"), (Key.value, .string "{size.small}"),
    ("small", .object [(Key.type, .string "number"), (Key.value, .string "{size}")])])]

theorem wellFormed_circularTree : circularTree.WellFormed := by
  simp [circularTree, Json.WellFormed, Json.WellFormedMembers, Dict.keys, Key.type, Key.value]

theorem round_trip_circularTree : circularTree.WellFormed ∧
    ∃ written, write true (Store.ofNodes (parse .path .all circularTree).nodes) = .ok written ∧
      (parse .path .all circularTree).Preserved (parse .path .all written) ∧
      (parse .path .all written).OnlyUnresolved ∧
      write true (Store.ofNodes (parse .path .all written).nodes) = .ok written :=
  ⟨wellFormed_circularTree, round_trip wellFormed_circularTree⟩

end Tree

end DesignTokens
