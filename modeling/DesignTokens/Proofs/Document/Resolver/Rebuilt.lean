/-
Items that have come back from their written document (`itemsRebuilt`). They can
be read again, they are written as before, and their nodes are those that the
items had before but for keys and for types that were left out.
-/
import DesignTokens.Proofs.Document.Resolver.Nodes
import DesignTokens.Proofs.Document.Resolver.ReadBack
import DesignTokens.Proofs.Document.Tree.Rebuilt

namespace DesignTokens.Resolver

variable {minimal : Bool}

/-! ## Contexts -/

theorem map_name_contextsRebuilt {place : Pointer.Path} {orders : List String} {cs : List Context}
    (hl : orders.length = cs.length) :
    (contextsRebuilt minimal place orders cs).map (·.name) = cs.map (·.name) := by
  induction cs generalizing orders with
  | nil => cases orders <;> rfl
  | cons c cs ih =>
    cases orders with
    | nil => cases hl
    | cons order orders =>
      rw [contextsRebuilt, List.map_cons, List.map_cons, ih (Nat.succ.inj hl)]

theorem map_order_contextsRebuilt {place : Pointer.Path} {orders : List String} {cs : List Context}
    (hl : orders.length = cs.length) :
    (contextsRebuilt minimal place orders cs).map (·.order) = orders := by
  induction cs generalizing orders with
  | nil =>
    cases orders with
    | nil => rfl
    | cons => cases hl
  | cons c cs ih =>
    cases orders with
    | nil => cases hl
    | cons order orders => rw [contextsRebuilt, List.map_cons, ih (Nat.succ.inj hl)]

theorem rootReadable_contextsRebuilt {place : Pointer.Path} {orders : List String}
    {cs : List Context} (h : ∀ c ∈ cs, RootReadable c.entries) :
    ∀ c ∈ contextsRebuilt minimal place orders cs, RootReadable c.entries := by
  induction cs generalizing orders with
  | nil => cases orders <;> exact nofun
  | cons c cs ih =>
    cases orders with
    | nil => exact nofun
    | cons order orders =>
      obtain ⟨hc, hcs⟩ := List.forall_mem_cons.1 h
      rw [contextsRebuilt]
      exact List.forall_mem_cons.2 ⟨readable_forestRebuilt minimal _ hc, ih hcs⟩

theorem contextMembers_contextsRebuilt {place : Pointer.Path} {orders : List String}
    {cs : List Context} (hl : orders.length = cs.length) (h : ∀ c ∈ cs, RootReadable c.entries) :
    contextMembers minimal (contextsRebuilt minimal place orders cs) =
      contextMembers minimal cs := by
  induction cs generalizing orders with
  | nil => cases orders <;> rfl
  | cons c cs ih =>
    cases orders with
    | nil => cases hl
    | cons order orders =>
      obtain ⟨hc, hcs⟩ := List.forall_mem_cons.1 h
      have hrest := ih (Nat.succ.inj hl) hcs
      rw [contextMembers, contextMembers] at hrest
      rw [contextMembers, contextMembers, contextsRebuilt, List.map_cons, List.map_cons, hrest,
        sourcesJson, forestMembers_forestRebuilt minimal _ hc.forest, ← sourcesJson]

theorem writtenAs_contextsRebuilt {place : Pointer.Path} (names : List String)
    (p : Option NodeId) {orders : List String} {cs : List Context}
    (hl : orders.length = cs.length) :
    WrittenAs minimal ((contextsGrove names cs).typed p none)
      ((contextsGrove names (contextsRebuilt minimal place orders cs)).typed p none) := by
  induction cs generalizing orders with
  | nil => cases orders <;> rfl
  | cons c cs ih =>
    cases orders with
    | nil => cases hl
    | cons order orders =>
      exact .cons rfl (.append (writtenAs_forestRebuilt minimal _ _ _ none c.entries)
        (ih (Nat.succ.inj hl)))

/-! ## Items -/

namespace Item

@[simp] theorem name_rebuilt (place : Pointer.Path) (order : String) (item : Item) :
    (item.rebuilt minimal place order).name = item.name := by
  cases item <;> rfl

@[simp] theorem order_rebuilt (place : Pointer.Path) (order : String) (item : Item) :
    (item.rebuilt minimal place order).order = order := by
  cases item <;> rfl

theorem readable_rebuilt (place : Pointer.Path) (order : String) {item : Item}
    (h : item.Readable) : (item.rebuilt minimal place order).Readable := by
  cases item with
  | set order' place' tokens entries => exact readable_forestRebuilt minimal _ h
  | modifier order' place' choice contexts =>
    have hl := OrderKey.length_initial contexts.length
    refine ⟨⟨rootReadable_contextsRebuilt h.1.entries, ?_, ?_⟩, fun name hname => ?_⟩
    · rw [map_name_contextsRebuilt hl]
      exact h.1.names
    · rw [map_order_contextsRebuilt hl]
      exact OrderKey.pairwise_initial _
    · rw [map_name_contextsRebuilt hl]
      exact h.2 name hname

theorem toJson_rebuilt (place : Pointer.Path) (order : String) {item : Item} (h : item.Readable) :
    (item.rebuilt minimal place order).toJson minimal = item.toJson minimal := by
  cases item with
  | set order' place' tokens entries =>
    rw [rebuilt, toJson, toJson, members, members, sourcesJson,
      forestMembers_forestRebuilt minimal _ h.forest, ← sourcesJson]
  | modifier order' place' choice contexts =>
    rw [rebuilt, toJson, toJson, members, members,
      contextMembers_contextsRebuilt (OrderKey.length_initial _) h.1.entries]

theorem writtenAs_rebuilt {p : Option NodeId} {next next' : Grove} (place : Pointer.Path)
    (order : String) (item : Item)
    (hnext : WrittenAs minimal (next.typed p none) (next'.typed p none)) :
    WrittenAs minimal ((item.grove next).typed p none)
      (((item.rebuilt minimal place order).grove next').typed p none) := by
  cases item with
  | set order' place' tokens entries =>
    exact .cons rfl (.append (writtenAs_forestRebuilt minimal _ _ _ none entries) hnext)
  | modifier order' place' choice contexts =>
    exact .cons rfl (.append (writtenAs_contextsRebuilt _ _ (OrderKey.length_initial _)) hnext)

end Item

theorem map_name_itemsRebuilt {index : Nat} {orders : List String} {items : List Item}
    (hl : orders.length = items.length) :
    (itemsRebuilt minimal index orders items).map Item.name = items.map Item.name := by
  induction items generalizing index orders with
  | nil => cases orders <;> rfl
  | cons item items ih =>
    cases orders with
    | nil => cases hl
    | cons order orders =>
      rw [itemsRebuilt, List.map_cons, List.map_cons, ih (Nat.succ.inj hl), Item.name_rebuilt]

theorem map_order_itemsRebuilt {index : Nat} {orders : List String} {items : List Item}
    (hl : orders.length = items.length) :
    (itemsRebuilt minimal index orders items).map Item.order = orders := by
  induction items generalizing index orders with
  | nil =>
    cases orders with
    | nil => rfl
    | cons => cases hl
  | cons item items ih =>
    cases orders with
    | nil => cases hl
    | cons order orders =>
      rw [itemsRebuilt, List.map_cons, ih (Nat.succ.inj hl), Item.order_rebuilt]

theorem readable_of_mem_itemsRebuilt {index : Nat} {orders : List String} {items : List Item}
    (h : ∀ item ∈ items, item.Readable) :
    ∀ item ∈ itemsRebuilt minimal index orders items, item.Readable := by
  induction items generalizing index orders with
  | nil => cases orders <;> exact nofun
  | cons item items ih =>
    cases orders with
    | nil => exact nofun
    | cons order orders =>
      obtain ⟨hitem, hitems⟩ := List.forall_mem_cons.1 h
      rw [itemsRebuilt]
      exact List.forall_mem_cons.2 ⟨Item.readable_rebuilt _ order hitem, ih hitems⟩

theorem map_toJson_itemsRebuilt {index : Nat} {orders : List String} {items : List Item}
    (hl : orders.length = items.length) (h : ∀ item ∈ items, item.Readable) :
    (itemsRebuilt minimal index orders items).map (Item.toJson minimal) =
      items.map (Item.toJson minimal) := by
  induction items generalizing index orders with
  | nil => cases orders <;> rfl
  | cons item items ih =>
    cases orders with
    | nil => cases hl
    | cons order orders =>
      obtain ⟨hitem, hitems⟩ := List.forall_mem_cons.1 h
      rw [itemsRebuilt, List.map_cons, List.map_cons, Item.toJson_rebuilt _ order hitem,
        ih (Nat.succ.inj hl) hitems]

/-- Items that have come back can be read again. -/
theorem readable_itemsRebuilt (minimal : Bool) (index : Nat) {items : List Item}
    (h : ItemsReadable items) :
    ItemsReadable (itemsRebuilt minimal index (OrderKey.initial items.length) items) where
  each := readable_of_mem_itemsRebuilt h.each
  names := by
    rw [map_name_itemsRebuilt (OrderKey.length_initial _)]
    exact h.names
  orders := by
    rw [map_order_itemsRebuilt (OrderKey.length_initial _)]
    exact OrderKey.pairwise_initial _

/-- The nodes of items come back but for their keys and the types that are left out. -/
theorem writtenAs_itemsRebuilt {index : Nat} {orders : List String} {items : List Item}
    (hl : orders.length = items.length) :
    WrittenAs minimal ((itemsGrove items).typed none none)
      ((itemsGrove (itemsRebuilt minimal index orders items)).typed none none) := by
  induction items generalizing index orders with
  | nil => cases orders <;> rfl
  | cons item items ih =>
    cases orders with
    | nil => cases hl
    | cons order orders => exact Item.writtenAs_rebuilt _ order item (ih (Nat.succ.inj hl))

end DesignTokens.Resolver
