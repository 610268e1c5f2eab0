/-
The dotted path by which a node is called: the names of the groups around it,
up to the nearest node that is not a group, and its own name. A `$root` token
is called by its group.
-/
import DesignTokens.Store.Basic

namespace DesignTokens.Store

/-- The names of the groups directly around a node, the nearest first. -/
def groupNames (s : Store) (id : NodeId) : List String :=
  ((s.ancestors id).takeWhile Node.isGroup).map Node.name

/-- The names that lead to a node. -/
def namesTo (s : Store) (n : Node) : List String :=
  let groups := s.groupNames n.id
  if groups.isEmpty || n.name ≠ rootTokenName then groups.reverse ++ [n.name]
  else groups.reverse

/-- The dotted path of a node. -/
def path? (s : Store) (id : NodeId) : Option String :=
  (s.node? id).map fun n => Text.join Alias.separator (s.namesTo n)

/-- What a reader sees of a node: its path. -/
def displayOf (s : Store) (id : NodeId) : String := (s.path? id).getD id.text

end DesignTokens.Store
