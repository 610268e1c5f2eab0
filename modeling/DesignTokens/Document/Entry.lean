/-
Groups and tokens as a tree: what a document says before its nodes have ids,
and what a store holds once its parents are followed. Siblings are listed in
order, each with its order key. The tag of an entry is its place in a document,
or its id in a store.
-/
import DesignTokens.Node

namespace DesignTokens

/-- A token, or a group with its children and their order keys. -/
inductive Entry (ι : Type) where
  | token (tag : ι) (t : Token)
  | group (tag : ι) (g : Group) (children : List (String × Entry ι))
  deriving Repr

/-- Siblings with their order keys. -/
abbrev Forest (ι : Type) := List (String × Entry ι)

namespace Entry

variable {ι : Type}

/-- The name. -/
def name : Entry ι → String
  | token _ t => t.name
  | group _ g _ => g.name

/-- The content of the entry's own node. -/
def content : Entry ι → Content
  | token _ t => .token t
  | group _ g _ => .group g

end Entry

end DesignTokens
