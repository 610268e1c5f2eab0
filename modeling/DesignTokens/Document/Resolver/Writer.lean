/-
Writing a store as a resolver document. Each set, and each context of a
modifier, is written with a single source that holds all of it. Resolvers at
the root are opened up in place; where the document is given no name and
description of its own, the first of them gives its.
-/
import DesignTokens.Document.Issue
import DesignTokens.Document.Tree.Writer

namespace DesignTokens.Resolver

/-- The description and the extensions of an item. -/
def describedMembers (description : Option String) (extensions : Option Members) : Members :=
  Json.optionalMember "description" .string description
    ++ Json.optionalMember "extensions" .object extensions

/-- The single source below a set or a context. -/
def writeSources (minimal : Bool) (s : Store) (id : NodeId) : Except WriteError Json := do
  return .array [← Tree.writeBelow minimal s (some id)]

/-- The contexts of a modifier by name; anything else below it is an error. -/
def writeContexts (minimal : Bool) (s : Store) (written : Members) :
    List Node → Except WriteError Members
  | [] => .ok written
  | n :: ns =>
    if n.isContext then do
      let sources ← writeSources minimal s n.id
      writeContexts minimal s (Dict.insert written n.name sources) ns
    else .error (.misplaced n.id)

/-- Writes a set or a modifier; no other node is an item. -/
def writeItem (minimal : Bool) (s : Store) (n : Node) : Except WriteError Json :=
  match n.content with
  | .set set => do
    let sources ← writeSources minimal s n.id
    return .object ([("type", .string "set"), ("name", .string set.name)]
      ++ describedMembers set.description set.extensions ++ [("sources", sources)])
  | .modifier m => do
    let contexts ← writeContexts minimal s [] (s.children (some n.id))
    return .object ([("type", .string "modifier"), ("name", .string m.name)]
      ++ describedMembers m.description m.extensions
      ++ Json.optionalMember "default" .string m.defaultContext
      ++ [("contexts", .object contexts)])
  | _ => .error (.misplaced n.id)

/-- The nodes that stand for items: the roots, with the children of resolvers in their place. -/
def itemsAtRoot (s : Store) : List Node :=
  (s.children none).flatMap fun n =>
    match n.content with
    | .resolver _ => s.children (some n.id)
    | _ => [n]

/-- What the first resolver at the root says of itself. -/
def infoAtRoot? (s : Store) : Option ResolverInfo :=
  (s.children none).findSome? fun n =>
    match n.content with
    | .resolver r => some r
    | _ => none

/-- The members for what a document says of itself; an empty name is not written. -/
def infoMembers (info : Option ResolverInfo) : Members :=
  match info with
  | none => []
  | some info =>
    (if info.name.isEmpty then [] else [("name", .string info.name)])
      ++ Json.optionalMember "description" .string info.description

/-- The sets and modifiers of a store as a resolver document. -/
def write (minimal : Bool) (s : Store) (info : Option ResolverInfo) : Except WriteError Json := do
  let items ← (itemsAtRoot s).mapM (writeItem minimal s)
  return .object ([("version", .string resolverVersion)]
    ++ infoMembers (info.or (infoAtRoot? s)) ++ [("resolutionOrder", .array items)])

end DesignTokens.Resolver
