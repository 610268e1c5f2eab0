/-
Resolution: the type of a token and its literal without any alias.

A token's type is the one declared on it, else that of the nearest group around
it that declares one; an alias without either takes the type of its target. The
literal of an alias is that of its target, and an alias in a field is replaced
by the literal of the token it refers to, which must have the type that the
field takes. In the end the literal must have the token's type.

`resolveFrom` carries the chain of tokens that are being resolved. A token that
comes again closes a circle, which is reported from that token on.
-/
import DesignTokens.Resolution.Path
import DesignTokens.Resolution.Lookup

namespace DesignTokens

/-- Why a token does not resolve. -/
inductive ResolutionError where
  /-- No token is there for a reference. -/
  | noTarget (ref : Alias)
  /-- References lead in a circle; the first path is repeated at the end. -/
  | circle (paths : List String)
  /-- A literal has neither a type of its own nor one to inherit. -/
  | untyped (path : String)
  /-- The value is of another type than the token or the field that holds it. -/
  | mistyped (path : String) (field : Option Alias) (expected found : TokenType)
  | notAToken (id : NodeId)
  | noSuchNode (id : NodeId)
  deriving DecidableEq, Repr

/-- What a reader is told. -/
def ResolutionError.message : ResolutionError → String
  | noTarget ref => "unresolved reference " ++ ref.display
  | circle paths => "circular reference: " ++ String.intercalate " -> " paths
  | untyped path => "type of token `" ++ path ++ "` cannot be determined"
  | mistyped path field expected found =>
    let field := match field with
      | none => ""
      | some ref => " (field " ++ ref.display ++ ")"
    "token `" ++ path ++ field ++ "` is typed " ++ expected.name ++ " but resolves to a "
      ++ found.name ++ " value"
  | notAToken id => "node `" ++ id.text ++ "` is not a token"
  | noSuchNode id => "no node with id `" ++ id.text ++ "`"

/-- A token's type, and its literal without any alias. -/
structure Resolved where
  type : TokenType
  value : Literal
  deriving DecidableEq, Repr

namespace Store

/-- The token that an alias held by a node refers to. The id of a group stands for its own token. -/
def target (s : Store) (ref : Alias) (holder : NodeId) : Except ResolutionError Node :=
  let target? := match ref with
    | .path dotted => s.tokenAt? dotted (some holder)
    | .id id =>
      match s.node? id with
      | none => none
      | some n => if n.isToken then some n else if n.isGroup then s.ownToken? id else none
  match target? with
  | some n => .ok n
  | none => .error (.noTarget ref)

/-- The type that is declared on a node or on the nearest group around it that declares one. -/
def ownType (s : Store) (n : Node) : Option TokenType :=
  n.content.declaredType.or
    (((s.ancestors n.id).filter Node.isGroup).findSome? fun a => a.content.declaredType)

/-- The token with an id. -/
def tokenNode (s : Store) (id : NodeId) : Except ResolutionError (Node × Token) :=
  match s.node? id with
  | none => .error (.noSuchNode id)
  | some n =>
    match n.token? with
    | none => .error (.notAToken id)
    | some t => .ok (n, t)

theorem mem_ids_of_tokenNode {s : Store} {id : NodeId} {r : Node × Token}
    (h : s.tokenNode id = .ok r) : id ∈ s.ids := by
  cases hn : s.node? id with
  | none => simp [tokenNode, hn] at h
  | some n => exact mem_ids_of_node? hn

/-- The circle that a token closes when it comes again at the end of a chain. -/
def circle (s : Store) (chain : List NodeId) (id : NodeId) : ResolutionError :=
  .circle (((chain.dropWhile (· ≠ id)) ++ [id]).map s.displayOf)

/-- The content for a field from the resolved target of its alias. -/
def fieldContent (s : Store) (holder target : NodeId) (k : FieldKind) (ref : Alias)
    (r : Resolved) : Except ResolutionError (Field k.Value) :=
  if r.type ≠ k.type then
    .error (.mistyped (s.displayOf holder) (some ref) k.type r.type)
  else
    match k.ofLiteral? r.value with
    | some v => .ok (.value v)
    | none => .error (.mistyped (s.displayOf target) none k.type r.type)

/-- Checks that the literal has the token's type. -/
def checkType (s : Store) (id : NodeId) (r : Resolved) : Except ResolutionError Resolved :=
  if r.value.type = r.type then .ok r
  else .error (.mistyped (s.displayOf id) none r.type r.value.type)

/-- Resolves a token at the end of a chain of tokens that wait for it. -/
def resolveFrom (s : Store) (chain : List NodeId) (id : NodeId) : Except ResolutionError Resolved :=
  match _h : s.tokenNode id with
  | .error e => .error e
  | .ok (n, t) =>
    if _hc : id ∈ chain then .error (s.circle chain id)
    else do
      let own := s.ownType n
      let r ← match t.value with
        | .aliasTo ref => do
          let target ← s.target ref id
          let inner ← s.resolveFrom (chain ++ [id]) target.id
          pure { type := own.getD inner.type, value := inner.value }
        | .literal lit =>
          match own with
          | none => throw (.untyped (s.displayOf id))
          | some type => do
            let value ← lit.mapFields fun k ref => do
              let target ← s.target ref id
              let r ← s.resolveFrom (chain ++ [id]) target.id
              s.fieldContent id target.id k ref r
            pure { type, value }
      s.checkType id r
termination_by s.unvisited chain
decreasing_by all_goals exact unvisited_append_lt (mem_ids_of_tokenNode _h) _hc

/-- The type and the literal of a token. -/
def resolve (s : Store) (id : NodeId) : Except ResolutionError Resolved := s.resolveFrom [] id

/-- Every token with its resolution, in the order in which their ids first came. -/
def resolveAll (s : Store) : List (Node × Except ResolutionError Resolved) :=
  s.tokens.map fun n => (n, s.resolve n.id)

/-- The type of a token at the end of a chain of aliases that wait for it. -/
def typeFrom (s : Store) (chain : List NodeId) (id : NodeId) : Except ResolutionError TokenType :=
  match _h : s.tokenNode id with
  | .error e => .error e
  | .ok (n, t) =>
    match s.ownType n with
    | some type => .ok type
    | none =>
      match t.value with
      | .literal _ => .error (.untyped (s.displayOf id))
      | .aliasTo ref =>
        if _hc : id ∈ chain then .error (s.circle chain id)
        else do
          let target ← s.target ref id
          s.typeFrom (chain ++ [id]) target.id
termination_by s.unvisited chain
decreasing_by exact unvisited_append_lt (mem_ids_of_tokenNode _h) _hc

/-- The type of a token; its value is followed only as far as the type asks. -/
def typeOf (s : Store) (id : NodeId) : Except ResolutionError TokenType := s.typeFrom [] id

/-- The type on a token itself, declared or of its literal, and its value as it is stored. -/
def rawValue (s : Store) (id : NodeId) : Except ResolutionError (Option TokenType × TokenValue) := do
  let (_, t) ← s.tokenNode id
  return (t.declaredType.or (t.value.literal?.map Literal.type), t.value)

end Store

end DesignTokens
