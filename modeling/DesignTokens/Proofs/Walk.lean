/-
Walks along a relation that keep the chain of what they came through. All of
the chain leads to where the walk is, and where the relation is well-founded
below, the walk has not been there before.
-/
import Mathlib.Logic.Relation

namespace DesignTokens.Walk

open Relation

variable {α : Type} {r : α → α → Prop}

/-- Nothing below which the relation is well-founded leads back to itself. -/
theorem not_transGen_self_of_acc {a : α} (h : Acc (fun b a => r a b) a) : ¬ TransGen r a a := by
  intro ha
  have hswap := transGen_swap.2 ha
  have hacc := h.transGen
  clear h ha
  induction hacc with
  | intro a _ ih => exact ih a hswap hswap

/-- One step further, all of the chain still leads to where the walk is. -/
theorem transGen_of_mem_append {chain : List α} {a b : α} (hchain : ∀ c ∈ chain, TransGen r c a)
    (h : r a b) {c : α} (hc : c ∈ chain ++ [a]) : TransGen r c b := by
  rcases List.mem_append.1 hc with hc | hc
  · exact (hchain c hc).tail h
  · exact List.mem_singleton.1 hc ▸ .single h

end DesignTokens.Walk
