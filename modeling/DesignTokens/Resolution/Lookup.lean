/-
How a dotted path is looked up. A store shows a node a stack of layers, each
the children of one container: the roots first, then every set in root order,
and for every modifier one context of it; resolvers are opened up in place. The
last layer that defines the path wins.

A modifier shows the context in which the looking node lies; failing that, the
one named by its default; failing that, its first.

In a layer all names but the last must lead through groups. The last names a
token, or a group, which stands for its `$root` token.
-/
import DesignTokens.Resolution.Visited

namespace DesignTokens.Store

/-- The `$root` token of a group. -/
def ownToken? (s : Store) (group : NodeId) : Option Node :=
  (s.children (some group)).find? fun n => n.isToken && n.name = rootTokenName

/-- The modifiers around a node, each with the context of it in which the node lies. -/
def activeContexts (s : Store) (from? : Option NodeId) : List (NodeId × NodeId) :=
  match from? with
  | none => []
  | some id =>
    let around := (s.node? id).toList ++ s.ancestors id
    around.foldl (fun active n =>
      match n.isContext, n.parent with
      | true, some modifier => Dict.insert active modifier n.id
      | _, _ => active) []

/-- The contexts of a modifier. -/
def contexts (s : Store) (modifier : NodeId) : List Node :=
  (s.children (some modifier)).filter Node.isContext

/-- The context that a modifier shows. -/
def chosenContext? (s : Store) (active : List (NodeId × NodeId)) (id : NodeId) (m : Modifier) :
    Option Node :=
  let contexts := s.contexts id
  let around := (Dict.get? active id).bind fun c => contexts.find? fun n => n.id = c
  let byDefault := m.defaultContext.bind fun name => contexts.find? fun n => n.name = name
  around.or (byDefault.or contexts.head?)

/-- The layers that a root, or a child of a resolver, adds. -/
def containerLayers (s : Store) (active : List (NodeId × NodeId)) (visited : List NodeId)
    (n : Node) : List NodeId :=
  match n.content with
  | .set _ | .context _ => [n.id]
  | .modifier m => ((s.chosenContext? active n.id m).map (·.id)).toList
  | .resolver _ =>
    if _h : n.id ∈ s.ids ∧ n.id ∉ visited then
      (s.children (some n.id)).flatMap (s.containerLayers active (n.id :: visited))
    else []
  | .token _ | .group _ => []
termination_by s.unvisited visited
decreasing_by exact unvisited_cons_lt _h.1 _h.2

/-- The parents whose children are the layers that a node sees, the root level first. -/
def layers (s : Store) (from? : Option NodeId) : List (Option NodeId) :=
  let active := s.activeContexts from?
  none :: ((s.children none).flatMap (s.containerLayers active [])).map some

/-- The token that names lead to from the children of a parent. -/
def tokenBelow? (s : Store) (parent : Option NodeId) : List String → Option Node
  | [] => none
  | [name] =>
    let children := s.children parent
    match children.find? fun n => n.isToken && n.name = name with
    | some token => some token
    | none =>
      (children.find? fun n => n.isGroup && n.name = name).bind fun g => s.ownToken? g.id
  | name :: names =>
    match (s.children parent).find? fun n => n.isGroup && n.name = name with
    | some group => s.tokenBelow? (some group.id) names
    | none => none

/-- The token that names lead to, as a node sees it. No name may be empty. -/
def lookup? (s : Store) (from? : Option NodeId) (names : List String) : Option Node :=
  if names.isEmpty || names.any String.isEmpty then none
  else (s.layers from?).reverse.findSome? fun layer => s.tokenBelow? layer names

/-- The token at a dotted path, as a node sees it. -/
def tokenAt? (s : Store) (dotted : String) (from? : Option NodeId) : Option Node :=
  s.lookup? from? (Alias.segmentsOf dotted)

end DesignTokens.Store
