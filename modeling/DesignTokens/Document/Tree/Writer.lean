/-
Writing the groups and tokens of a store as a tree document. The children of a
parent are followed down (`Store.forest`) and written as members by name; of
several siblings with one name the first is kept.

With minimal types a type is left out where it equals the one passed down from
above. A literal that declares no type and inherits none is written with its
own, for else it could not be read back. A reference by id is written as the
path of the node it names, which must be in the store.
-/
import DesignTokens.Document.Entry
import DesignTokens.Document.Name
import DesignTokens.Resolution.Path
import DesignTokens.Resolution.Visited
import DesignTokens.Value.Writer

namespace DesignTokens

/-- Why a store cannot be written. -/
inductive WriteError where
  /-- A reference by id to a node that is not there. -/
  | missingTarget (token : NodeId) (ref : Alias)
  /-- A node that is neither a set nor a modifier, nor a context where one must stand. -/
  | misplaced (id : NodeId)
  deriving DecidableEq, Repr

/-- What a reader is told. -/
def WriteError.message : WriteError → String
  | missingTarget token ref =>
    "alias " ++ ref.display ++ " on `" ++ token.text ++ "` points at missing token"
  | misplaced id => "node `" ++ id.text ++ "` cannot appear at the document root"

/-- A mark of deprecation as JSON. -/
def Deprecated.toJson : Deprecated → Json
  | .marked b => .bool b
  | .because s => .string s

namespace Store

/-- The groups and tokens below a parent, as a tree. Other nodes are passed over. -/
def forestBelow (s : Store) (visited : List NodeId) (parent : Option NodeId) : Forest NodeId :=
  (s.children parent).filterMap fun n =>
    match n.content with
    | .token t => some (n.order, .token n.id t)
    | .group g =>
      if _h : n.id ∈ s.ids ∧ n.id ∉ visited then
        some (n.order, .group n.id g (s.forestBelow (n.id :: visited) (some n.id)))
      else none
    | _ => none
termination_by s.unvisited visited
decreasing_by exact unvisited_cons_lt _h.1 _h.2

/-- The groups and tokens below a parent, as a tree. -/
def forest (s : Store) (parent : Option NodeId) : Forest NodeId := s.forestBelow [] parent

/-- The text of a reference in a document. -/
def aliasText (s : Store) (holder : NodeId) (ref : Alias) : Except WriteError String :=
  match ref with
  | .path dotted => .ok (Alias.braced dotted)
  | .id id =>
    match s.path? id with
    | some dotted => .ok (Alias.braced dotted)
    | none => .error (.missingTarget holder ref)

end Store

namespace Tree

/-- The declared type, unless it is left out as the same as the inherited one. -/
def writtenType (minimal : Bool) (declared inherited : Option TokenType) : Option TokenType :=
  if minimal && declared = inherited then none else declared

/-- The type written on a token. -/
def tokenType (minimal : Bool) (t : Token) (inherited : Option TokenType) : Option TokenType :=
  match t.declaredType, inherited, t.value with
  | none, none, .literal lit => some lit.type
  | declared, inherited, _ => writtenType minimal declared inherited

/-- The `$type` member. -/
def typeMember (t : Option TokenType) : Members :=
  Json.optionalMember Key.type (fun t => .string (TokenType.name t)) t

/-- The members that notes are written as. -/
def noteMembers (notes : Notes) : Members :=
  Json.optionalMember Key.description .string notes.description
    ++ Json.optionalMember Key.deprecated Deprecated.toJson notes.deprecated
    ++ Json.optionalMember Key.extensions .object notes.extensions

/-- Members by name; of several under one name the first is kept. -/
def byName (named : List (String × Json)) : Members := Dict.addMissing [] named

mutual

/-- Writes an entry below groups that pass down a type. -/
def writeEntry {ε : Type} (minimal : Bool) (writeAlias : NodeId → Alias → Except ε String)
    (inherited : Option TokenType) : Entry NodeId → Except ε Json
  | .token id t => do
    let value ← t.value.write (writeAlias id)
    return .object (typeMember (tokenType minimal t inherited)
      ++ (Key.value, value) :: noteMembers t.notes)
  | .group _ g children => do
    let named ← writeEntries minimal writeAlias (g.declaredType.or inherited) children
    let own := typeMember (writtenType minimal g.declaredType inherited) ++ noteMembers g.notes
    return .object (Dict.insertAll own (byName named))

/-- Writes entries, each with its name. -/
def writeEntries {ε : Type} (minimal : Bool) (writeAlias : NodeId → Alias → Except ε String)
    (inherited : Option TokenType) :
    List (String × Entry NodeId) → Except ε (List (String × Json))
  | [] => .ok []
  | (_, e) :: es => do
    let v ← writeEntry minimal writeAlias inherited e
    let rest ← writeEntries minimal writeAlias inherited es
    return (e.name, v) :: rest

end

/-- The groups and tokens below a parent of a store, as a document. -/
def writeBelow (minimal : Bool) (s : Store) (parent : Option NodeId) : Except WriteError Json := do
  let named ← writeEntries minimal s.aliasText none (s.forest parent)
  return .object (byName named)

/-- The groups and tokens of a store as a tree document. -/
def write (minimal : Bool) (s : Store) : Except WriteError Json := writeBelow minimal s none

end Tree

end DesignTokens
