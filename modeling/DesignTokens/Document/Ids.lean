/-
From trees to nodes: every entry gets an id, in the order in which the entries
stand, and names its parent by id. An id is the path of names to the entry, or
a text with the number of the entry behind it.
-/
import DesignTokens.Document.Entry
import DesignTokens.Pointer.Basic

namespace DesignTokens

/-- How ids are made. -/
inductive IdScheme where
  /-- The names from the document's root, as a JSON pointer. -/
  | path
  /-- A text and the numbers from one on, in reading order. They have no bound, where a counter of
  64 bits would overflow behind `2 ^ 64` entries. -/
  | sequential (start : String)
  deriving DecidableEq, Repr

/-- The id of the entry to which names lead, with so many entries before it. -/
def IdScheme.id : IdScheme → List String → Nat → NodeId
  | path, names, _ => ⟨Pointer.format names⟩
  | sequential start, _, before => ⟨start ++ toString (before + 1)⟩

/-- A node, and its place in the document it comes from. -/
structure Placed where
  node : Node
  place : Pointer.Path
  deriving DecidableEq, Repr

mutual

/-- The nodes of an entry: its own, then those below it. -/
def Entry.nodes (scheme : IdScheme) (parent : Option NodeId) (names : List String)
    (before : Nat) (order : String) : Entry Pointer.Path → List Placed
  | .token place t => [⟨⟨scheme.id (names ++ [t.name]) before, parent, order, .token t⟩, place⟩]
  | .group place g children =>
    let names := names ++ [g.name]
    let id := scheme.id names before
    ⟨⟨id, parent, order, .group g⟩, place⟩
      :: forestNodes scheme (some id) names (before + 1) children

/-- The nodes of siblings, one after another. -/
def forestNodes (scheme : IdScheme) (parent : Option NodeId) (names : List String)
    (before : Nat) : List (String × Entry Pointer.Path) → List Placed
  | [] => []
  | (order, e) :: es =>
    let own := e.nodes scheme parent names before order
    own ++ forestNodes scheme parent names (before + own.length) es

end

end DesignTokens
