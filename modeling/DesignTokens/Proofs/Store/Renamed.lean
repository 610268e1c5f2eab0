/-
Stores under other ids. A permutation of ids renames nodes, and with them the
entries and the index of a store. The store compares ids and does nothing else
with them, so each of its operations commutes with renaming; what is put into a
renamed store is found there under the new id (`ofNodes_renamed`,
`node?_renamed`, `children_renamed`).
-/
import Mathlib.Logic.Equiv.Defs
import DesignTokens.Proofs.Dict
import DesignTokens.Store.Batch

namespace DesignTokens

variable (σ : Equiv.Perm NodeId)

namespace Node

/-- The node under another id, and its parent under another. -/
def renamed (n : Node) : Node := { n with id := σ n.id, parent := n.parent.map σ }

variable (n : Node)

@[simp] theorem id_renamed : (n.renamed σ).id = σ n.id := rfl

@[simp] theorem parent_renamed : (n.renamed σ).parent = n.parent.map σ := rfl

@[simp] theorem order_renamed : (n.renamed σ).order = n.order := rfl

@[simp] theorem content_renamed : (n.renamed σ).content = n.content := rfl

@[simp] theorem name_renamed : (n.renamed σ).name = n.name := rfl

@[simp] theorem isContext_renamed : (n.renamed σ).isContext = n.isContext := rfl

end Node

/-- A stored node under another id; it keeps its sequence number. -/
def Stored.renamed (c : Stored) : Stored := ⟨c.node.renamed σ, c.seq⟩

namespace Store

/-- The lists of children with all ids renamed. -/
def indexRenamed (index : List (Option NodeId × List Stored)) :
    List (Option NodeId × List Stored) :=
  index.map (Prod.map (Option.map σ) (List.map (Stored.renamed σ)))

/-- The store with all ids renamed. -/
def renamed (s : Store) : Store :=
  ⟨s.entries.map (Prod.map σ (Stored.renamed σ)), indexRenamed σ s.index, s.nextSeq⟩

/-! ## Reading -/

section

variable (s : Store)

theorem node?_renamed (id : NodeId) :
    (s.renamed σ).node? (σ id) = (s.node? id).map (Node.renamed σ) := by
  rw [node?, node?, renamed, Dict.get?_map σ.injective, Option.map_map, Option.map_map]
  rfl

theorem ids_renamed : (s.renamed σ).ids = s.ids.map σ := Dict.keys_map ..

theorem size_renamed : (s.renamed σ).size = s.size := List.length_map ..

theorem children_renamed (parent : Option NodeId) :
    (s.renamed σ).children (parent.map σ) = (s.children parent).map (Node.renamed σ) := by
  rw [children, children, renamed, indexRenamed, Dict.get?_map (Option.map_injective σ.injective)]
  cases Dict.get? s.index parent with
  | none => rfl
  | some l => simp only [Option.map_some, Option.getD_some, List.map_map]; rfl

theorem chainUp_renamed (steps : Nat) (from? : Option NodeId) :
    (s.renamed σ).chainUp steps (from?.map σ) = (s.chainUp steps from?).map (Node.renamed σ) := by
  induction steps generalizing from? with
  | zero => rfl
  | succ steps ih =>
    cases from? with
    | none => rfl
    | some id =>
      rw [Option.map_some, chainUp, chainUp, node?_renamed]
      cases s.node? id with
      | none => rfl
      | some n => exact congrArg _ (ih n.parent)

theorem ancestors_renamed (id : NodeId) :
    (s.renamed σ).ancestors (σ id) = (s.ancestors id).map (Node.renamed σ) := by
  rw [ancestors, ancestors, node?_renamed]
  cases s.node? id with
  | none => rfl
  | some n => exact (size_renamed σ s).symm ▸ chainUp_renamed σ s s.size n.parent

end

/-! ## Changing one node -/

section

variable (c : Stored)

theorem insertSorted_renamed (l : List Stored) :
    insertSorted (c.renamed σ) (l.map (Stored.renamed σ)) =
      (insertSorted c l).map (Stored.renamed σ) := by
  induction l with
  | nil => rfl
  | cons d l ih =>
    have hbefore : (c.renamed σ).Before (d.renamed σ) ↔ c.Before d := Iff.rfl
    simp only [List.map_cons, insertSorted, hbefore]
    split
    · rfl
    · exact congrArg _ ih

variable (index : List (Option NodeId × List Stored))

theorem get?_indexRenamed (parent : Option NodeId) :
    Dict.get? (indexRenamed σ index) (parent.map σ) =
      (Dict.get? index parent).map (List.map (Stored.renamed σ)) :=
  Dict.get?_map (Option.map_injective σ.injective) ..

theorem enlist_renamed :
    enlist (indexRenamed σ index) (c.renamed σ) = indexRenamed σ (enlist index c) := by
  have hsiblings : (Dict.get? (indexRenamed σ index) (c.node.parent.map σ)).getD [] =
      ((Dict.get? index c.node.parent).getD []).map (Stored.renamed σ) := by
    rw [get?_indexRenamed]
    cases Dict.get? index c.node.parent <;> rfl
  have hparent : (c.renamed σ).node.parent = c.node.parent.map σ := rfl
  rw [enlist, hparent, hsiblings, insertSorted_renamed]
  exact Dict.insert_map (Option.map_injective σ.injective) ..

theorem unlist_renamed :
    unlist (indexRenamed σ index) (c.renamed σ) = indexRenamed σ (unlist index c) := by
  have hparent : (c.renamed σ).node.parent = c.node.parent.map σ := rfl
  have hother : ∀ siblings : List Stored, (siblings.map (Stored.renamed σ)).filter
      (fun d => d.node.id ≠ (c.renamed σ).node.id) =
        (siblings.filter fun d => d.node.id ≠ c.node.id).map (Stored.renamed σ) := by
    intro siblings
    rw [List.filter_map]
    congr 1
    refine List.filter_congr fun d _ => ?_
    simp [Stored.renamed]
  rw [unlist, unlist, hparent, get?_indexRenamed]
  cases Dict.get? index c.node.parent with
  | none => rfl
  | some siblings =>
    simp only [Option.map_some, hother]
    cases siblings.filter fun d => d.node.id ≠ c.node.id with
    | nil => exact Dict.erase_map (Option.map_injective σ.injective) ..
    | cons d rest => exact Dict.insert_map (Option.map_injective σ.injective) ..

end

theorem put_renamed (s : Store) (n : Node) :
    (s.renamed σ).put (n.renamed σ) = (s.put n).renamed σ := by
  have hget : Dict.get? (s.renamed σ).entries (n.renamed σ).id =
      (Dict.get? s.entries n.id).map (Stored.renamed σ) := Dict.get?_map σ.injective ..
  have hinsert : ∀ seq, Dict.insert (s.renamed σ).entries (n.renamed σ).id ⟨n.renamed σ, seq⟩ =
      (Dict.insert s.entries n.id ⟨n, seq⟩).map (Prod.map σ (Stored.renamed σ)) :=
    fun seq => Dict.insert_map σ.injective (Stored.renamed σ) s.entries n.id ⟨n, seq⟩
  rw [put, put, hget]
  cases Dict.get? s.entries n.id with
  | none =>
    have henlist := enlist_renamed σ ⟨n, s.nextSeq⟩ s.index
    exact congrArg₂ (Store.mk · · _) (hinsert _) henlist
  | some old =>
    have henlist := enlist_renamed σ ⟨n, old.seq⟩ (unlist s.index old)
    rw [← unlist_renamed] at henlist
    exact congrArg₂ (Store.mk · · _) (hinsert _) henlist

theorem remove_renamed (s : Store) (id : NodeId) :
    (s.renamed σ).remove (σ id) = (s.remove id).renamed σ := by
  have hget : Dict.get? (s.renamed σ).entries (σ id) =
      (Dict.get? s.entries id).map (Stored.renamed σ) := Dict.get?_map σ.injective ..
  rw [remove, remove, hget]
  cases Dict.get? s.entries id with
  | none => rfl
  | some old =>
    exact congrArg₂ (Store.mk · · _) (Dict.erase_map σ.injective ..) (unlist_renamed σ old s.index)

/-! ## Batches -/

/-- A batch of changes under other ids. -/
def batchRenamed (b : Batch) : Batch := b.map (Prod.map σ (Option.map (Node.renamed σ)))

theorem extend_renamed (b : Batch) (ns : List Node) :
    (batchRenamed σ b).extend (ns.map (Node.renamed σ)) = batchRenamed σ (b.extend ns) := by
  induction ns generalizing b with
  | nil => rfl
  | cons n ns ih =>
    have hset : (batchRenamed σ b).set (n.renamed σ) = batchRenamed σ (b.set n) :=
      Dict.insert_map σ.injective (Option.map (Node.renamed σ)) b n.id (some n)
    rw [List.map_cons, Batch.extend, List.foldl_cons, hset]
    exact ih (b.set n)

theorem commit_renamed (s : Store) (b : Batch) :
    (s.renamed σ).commit (batchRenamed σ b) = (s.commit b).renamed σ := by
  induction b generalizing s with
  | nil => rfl
  | cons e b ih =>
    obtain ⟨id, change⟩ := e
    have happly : (s.renamed σ).apply (σ id) (change.map (Node.renamed σ)) =
        (s.apply id change).renamed σ := by
      cases change with
      | none => exact remove_renamed σ s id
      | some n => exact put_renamed σ s n
    rw [batchRenamed, List.map_cons, commit, List.foldl_cons]
    exact (congrArg (Store.commit · _) happly).trans (ih _)

/-- A store of renamed nodes is the store of the nodes, renamed. -/
theorem ofNodes_renamed (ns : List Node) :
    ofNodes (ns.map (Node.renamed σ)) = (ofNodes ns).renamed σ := by
  rw [ofNodes, ofNodes, ← commit_renamed, ← extend_renamed]
  rfl

end Store

end DesignTokens
