/-
Batches: changes are staged first and reach the store together.

A batch has one entry for each id that was written, in the order in which the
ids were first written; the last write to an id counts. `Batch.get` shows a
node as it will be, `Store.commit` makes the changes, and `Store.transact` runs
a piece of work that stages a batch and commits it only if the work succeeds.
-/
import DesignTokens.Store.Basic

namespace DesignTokens

/-- Staged changes by id: a node to set, or nothing for a deletion. -/
abbrev Batch := List (NodeId × Option Node)

/-- A change to a store. -/
inductive Write where
  | set (n : Node)
  | delete (id : NodeId)
  | extend (ns : List Node)
  deriving DecidableEq, Repr

namespace Batch

/-- The batch without changes. -/
def empty : Batch := []

/-- Stages a node, to be added or to replace the one with its id. -/
def set (b : Batch) (n : Node) : Batch := Dict.insert b n.id (some n)

/-- Stages a deletion. -/
def delete (b : Batch) (id : NodeId) : Batch := Dict.insert b id none

/-- Stages nodes one after another. -/
def extend (b : Batch) (ns : List Node) : Batch := ns.foldl set b

/-- Stages a change. -/
def write (b : Batch) : Write → Batch
  | .set n => b.set n
  | .delete id => b.delete id
  | .extend ns => b.extend ns

/-- The node with an id as it will be once the batch is committed. -/
def get (base : Store) (b : Batch) (id : NodeId) : Option Node :=
  match Dict.get? b id with
  | some change => change
  | none => base.node? id

/-- The number of ids written. -/
def size (b : Batch) : Nat := b.length

end Batch

namespace Store

/-- Makes one staged change. -/
def apply (s : Store) (id : NodeId) : Option Node → Store
  | some n => s.put n
  | none => s.remove id

/-- Makes all changes of a batch, in the order of their ids. -/
def commit (s : Store) (b : Batch) : Store := b.foldl (fun s e => s.apply e.1 e.2) s

/-- Runs work that stages a batch; the store changes only if the work succeeds. -/
def transact {ε : Type} (s : Store) (work : Batch → Except ε Batch) : Except ε Store :=
  (work .empty).map s.commit

/-- The store that holds nodes, put there in one batch. -/
def ofNodes (ns : List Node) : Store := empty.commit (Batch.empty.extend ns)

end Store

end DesignTokens
