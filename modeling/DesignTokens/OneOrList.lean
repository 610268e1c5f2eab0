/-
A value that is written as one item or as a list of items, and remembers which.
-/

namespace DesignTokens

/-- One item, or a list of them. -/
inductive OneOrList (α : Type) where
  | one (item : α)
  | many (items : List α)
  deriving DecidableEq, Repr

namespace OneOrList

variable {α β : Type}

/-- The items, one or many. -/
def toList : OneOrList α → List α
  | one item => [item]
  | many items => items

/-- The number of items. -/
def length (x : OneOrList α) : Nat := x.toList.length

/-- Whether there are no items. -/
def isEmpty (x : OneOrList α) : Bool := x.toList.isEmpty

/-- Applies an action to each item in order; the form stays. -/
def mapM {m : Type → Type} [Monad m] (f : α → m β) : OneOrList α → m (OneOrList β)
  | one item => do return one (← f item)
  | many items => do return many (← items.mapM f)

end OneOrList

end DesignTokens
