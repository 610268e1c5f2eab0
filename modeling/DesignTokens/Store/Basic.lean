/-
The store: nodes by id, in the order in which their ids first came, and an
index of children.

Each stored node carries a sequence number, which it keeps when it is replaced
and which settles ties between siblings with one order key. The index lists
the nodes under each parent, the roots under no parent; each list is sorted by
order key and sequence number, and a parent without children has no list. The
parent of an indexed node may be missing from the store.

`put` and `remove` change one node and keep the index in step; batches are made
of them. The walk to the root ends after as many steps as there are nodes, so
that a cycle of parents cannot go on for ever.
-/
import DesignTokens.Node
import DesignTokens.OrderKey.Basic

namespace DesignTokens

/-- A node and its sequence number. -/
structure Stored where
  node : Node
  seq : Nat
  deriving DecidableEq, Repr

/-- Siblings stand in the order of their keys, and of their sequence numbers where keys tie. -/
def Stored.Before (a b : Stored) : Prop :=
  a.node.order < b.node.order ∨ (a.node.order = b.node.order ∧ a.seq < b.seq)

instance (a b : Stored) : Decidable (a.Before b) := inferInstanceAs (Decidable (_ ∨ _))

/-- Nodes by id, with their index and a counter for new nodes. -/
structure Store where
  /-- The nodes by id. -/
  entries : List (NodeId × Stored)
  /-- The children by parent. -/
  index : List (Option NodeId × List Stored)
  /-- The sequence number of the next new node. It has no bound, where a counter of 64 bits would
  overflow behind `2 ^ 64` new nodes. -/
  nextSeq : Nat
  deriving DecidableEq, Repr

namespace Store

/-- The store without nodes. -/
def empty : Store := ⟨[], [], 0⟩

/-! ## Reading -/

/-- The node with an id. -/
def node? (s : Store) (id : NodeId) : Option Node := (Dict.get? s.entries id).map (·.node)

/-- Whether there is a node with an id. -/
def contains (s : Store) (id : NodeId) : Bool := (s.node? id).isSome

/-- The ids of all nodes, in the order in which they first came. -/
def ids (s : Store) : List NodeId := Dict.keys s.entries

/-- All nodes, in the order in which their ids first came. -/
def nodes (s : Store) : List Node := s.entries.map fun e => e.2.node

/-- The number of nodes. -/
def size (s : Store) : Nat := s.entries.length

/-- The children of a parent in sibling order; the roots for no parent. -/
def children (s : Store) (parent : Option NodeId) : List Node :=
  ((Dict.get? s.index parent).getD []).map (·.node)

/-- The parent of a node, if the store has it. -/
def parent? (s : Store) (id : NodeId) : Option Node := do
  let n ← s.node? id
  let p ← n.parent
  s.node? p

/-- The siblings of a node, itself included, and its place among them. -/
def siblings? (s : Store) (id : NodeId) : Option (List Node × Nat) := do
  let n ← s.node? id
  let siblings := s.children n.parent
  let place ← siblings.findIdx? fun m => m.id = id
  return (siblings, place)

/-- The sibling before a node. -/
def prevSibling? (s : Store) (id : NodeId) : Option Node := do
  let (siblings, place) ← s.siblings? id
  if place = 0 then none else siblings[place - 1]?

/-- The sibling behind a node. -/
def nextSibling? (s : Store) (id : NodeId) : Option Node := do
  let (siblings, place) ← s.siblings? id
  siblings[place + 1]?

/-- At most `steps` nodes, from one id up along the parents. -/
def chainUp (s : Store) : Nat → Option NodeId → List Node
  | 0, _ => []
  | _ + 1, none => []
  | steps + 1, some id =>
    match s.node? id with
    | none => []
    | some n => n :: s.chainUp steps n.parent

/-- The ancestors of a node, the nearest first. -/
def ancestors (s : Store) (id : NodeId) : List Node :=
  match s.node? id with
  | none => []
  | some n => s.chainUp s.size n.parent

/-- All tokens, in the order in which their ids first came. -/
def tokens (s : Store) : List Node := s.nodes.filter Node.isToken

/-- A key behind every child of a parent. -/
def keyBehindAll (s : Store) (parent : Option NodeId) : Except KeyError String :=
  OrderKey.keyWithin ((s.children parent).getLast?.map (·.order)) none

/-- A key before every child of a parent. -/
def keyBeforeAll (s : Store) (parent : Option NodeId) : Except KeyError String :=
  OrderKey.keyWithin none ((s.children parent).head?.map (·.order))

/-! ## Changing one node -/

/-- Puts a child into a sorted list of siblings. -/
def insertSorted (c : Stored) : List Stored → List Stored
  | [] => [c]
  | d :: ds => if c.Before d then c :: d :: ds else d :: insertSorted c ds

/-- The index with a child added under its parent. -/
def enlist (index : List (Option NodeId × List Stored)) (c : Stored) :
    List (Option NodeId × List Stored) :=
  let siblings := (Dict.get? index c.node.parent).getD []
  Dict.insert index c.node.parent (insertSorted c siblings)

/-- The index with a child taken from its parent; an empty list goes. -/
def unlist (index : List (Option NodeId × List Stored)) (c : Stored) :
    List (Option NodeId × List Stored) :=
  match Dict.get? index c.node.parent with
  | none => index
  | some siblings =>
    match siblings.filter fun d => d.node.id ≠ c.node.id with
    | [] => Dict.erase index c.node.parent
    | rest => Dict.insert index c.node.parent rest

/-- Adds a node, or replaces the one with its id in place. -/
def put (s : Store) (n : Node) : Store :=
  match Dict.get? s.entries n.id with
  | none =>
    let c : Stored := ⟨n, s.nextSeq⟩
    ⟨Dict.insert s.entries n.id c, enlist s.index c, s.nextSeq + 1⟩
  | some old =>
    let c : Stored := ⟨n, old.seq⟩
    ⟨Dict.insert s.entries n.id c, enlist (unlist s.index old) c, s.nextSeq⟩

/-- Removes a node; its children stay, without it. -/
def remove (s : Store) (id : NodeId) : Store :=
  match Dict.get? s.entries id with
  | none => s
  | some old => ⟨Dict.erase s.entries id, unlist s.index old, s.nextSeq⟩

end Store

end DesignTokens
