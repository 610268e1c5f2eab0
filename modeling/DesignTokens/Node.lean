/-
Nodes: what a store holds. A node is a flat record with its own id, the id of
its parent if it has one, a key that orders it among its siblings, and its
content. Parents are named, not held, so a parent may be missing.

Tokens and groups make up the namespaces: a dotted path leads through the names
of groups to the name of a token. Sets, the contexts of a modifier, and
resolvers are containers: they hold a namespace and add no name to a path.
-/
import DesignTokens.Json.Basic
import DesignTokens.Value.Literal

namespace DesignTokens

/-- A mark of deprecation, with or without a reason. -/
inductive Deprecated where
  | marked (b : Bool)
  | because (text : String)
  deriving DecidableEq, Repr

/-- What is said about a token or a group besides its type and its value. -/
structure Notes where
  description : Option String
  deprecated : Option Deprecated
  extensions : Option Members
  deriving DecidableEq, Repr

/-- No notes at all. -/
def Notes.none : Notes := ⟨.none, .none, .none⟩

/-- A token: a name, what is said about it, and its value. -/
structure Token where
  name : String
  notes : Notes
  /-- The type declared on the token itself. -/
  declaredType : Option TokenType
  value : TokenValue
  deriving DecidableEq, Repr

/-- A group: a name, and what its tokens share. It does not hold them; they name it as parent. -/
structure Group where
  name : String
  notes : Notes
  /-- The type declared on the group, which its tokens inherit. -/
  declaredType : Option TokenType
  deriving DecidableEq, Repr

/-- A named set of tokens. -/
structure TokenSet where
  name : String
  description : Option String
  extensions : Option Members
  deriving DecidableEq, Repr

/-- A choice among contexts, one of which applies at a time. -/
structure Modifier where
  name : String
  description : Option String
  extensions : Option Members
  /-- The name of the context that applies where nothing else is chosen. -/
  defaultContext : Option String
  deriving DecidableEq, Repr

/-- What a resolver document says of itself. -/
structure ResolverInfo where
  name : String
  description : Option String
  deriving DecidableEq, Repr

/-- The content of a node. -/
inductive Content where
  | token (t : Token)
  | group (g : Group)
  | set (s : TokenSet)
  | modifier (m : Modifier)
  | context (name : String)
  | resolver (r : ResolverInfo)
  deriving DecidableEq, Repr

/-- A node of a store. -/
structure Node where
  id : NodeId
  parent : Option NodeId
  /-- The key among siblings. -/
  order : String
  content : Content
  deriving DecidableEq, Repr

/-- The name of the token that carries a group's own value. -/
def rootTokenName : String := "$root"

namespace Content

/-- The name. -/
def name : Content → String
  | token t => t.name
  | group g => g.name
  | set s => s.name
  | modifier m => m.name
  | context name => name
  | resolver r => r.name

/-- The type declared on a token or a group. -/
def declaredType : Content → Option TokenType
  | token t => t.declaredType
  | group g => g.declaredType
  | _ => none

/-- The containers of namespaces. -/
def isNamespace : Content → Bool
  | set _ | context _ | resolver _ => true
  | _ => false

end Content

namespace Node

/-- The node's name. -/
def name (n : Node) : String := n.content.name

/-- The token that the node is. -/
def token? (n : Node) : Option Token :=
  match n.content with
  | .token t => some t
  | _ => none

/-- The group that the node is. -/
def group? (n : Node) : Option Group :=
  match n.content with
  | .group g => some g
  | _ => none

/-- Whether the node is a token. -/
def isToken (n : Node) : Bool := n.token?.isSome

/-- Whether the node is a group. -/
def isGroup (n : Node) : Bool := n.group?.isSome

/-- Whether the node is a context of a modifier. -/
def isContext (n : Node) : Bool :=
  match n.content with
  | .context _ => true
  | _ => false

end Node

end DesignTokens
