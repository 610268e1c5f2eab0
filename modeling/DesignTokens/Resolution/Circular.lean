/-
Whether a new alias would close a circle, found before it is written: the walk
follows every alias, of a whole value or of a field, from the would-be target
on, and looks for the would-be holder. An alias that leads nowhere is passed
over.
-/
import DesignTokens.Resolution.Basic

namespace DesignTokens.Store

/-- The tokens that the aliases of a node refer to. -/
def targets (s : Store) (n : Node) : List NodeId :=
  match n.token? with
  | none => []
  | some t => t.value.aliases.filterMap fun ref =>
      match s.target ref n.id with
      | .ok target => some target.id
      | .error _ => none

/-- Whether the walk from the nodes that wait comes upon `source`. -/
def comesUpon (s : Store) (source : NodeId) (visited : List NodeId) : List NodeId → Bool
  | [] => false
  | id :: waiting =>
    if _hv : id ∈ visited then s.comesUpon source visited waiting
    else
      match _h : s.node? id with
      | none => s.comesUpon source visited waiting
      | some n =>
        let targets := s.targets n
        if source ∈ targets then true
        else s.comesUpon source (id :: visited) (targets ++ waiting)
termination_by waiting => (s.unvisited visited, waiting.length)
decreasing_by
  · exact Prod.Lex.right _ (by simp)
  · exact Prod.Lex.right _ (by simp)
  · exact Prod.Lex.left _ _ (unvisited_cons_lt (mem_ids_of_node? _h) _hv)

/-- Whether an alias from `source` to `target` would close a circle. -/
def closesCircle (s : Store) (source target : NodeId) : Bool :=
  source = target || s.comesUpon source [] [target]

end DesignTokens.Store
