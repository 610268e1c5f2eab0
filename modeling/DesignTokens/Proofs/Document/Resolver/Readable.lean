/-
The items that a reader of resolver documents gives where it has nothing to
report. Items have distinct names and ascending keys, and so have the contexts
of a modifier; each set and context holds a tree that can be read; and a default
names a context that is there.

What a writer makes of such items is given here by a plain recursion
(`Item.toJson`), which looks neither at places nor at keys.
-/
import DesignTokens.Document.Resolver.Reader
import DesignTokens.Document.Resolver.Writer
import DesignTokens.Proofs.Document.Tree.Readable

namespace DesignTokens.Resolver

/-- Contexts that a reader can have given. -/
structure ContextsReadable (cs : List Context) : Prop where
  entries : ∀ c ∈ cs, RootReadable c.entries
  names : (cs.map (·.name)).Nodup
  orders : (cs.map (·.order)).Pairwise (· < ·)

namespace Item

/-- The name. -/
def name : Item → String
  | set _ _ tokens _ => tokens.name
  | modifier _ _ choice _ => choice.name

/-- The key among items. -/
def order : Item → String
  | set order _ _ _ | modifier order _ _ _ => order

/-- The content of the item's own node. -/
def content : Item → Content
  | set _ _ tokens _ => .set tokens
  | modifier _ _ choice _ => .modifier choice

/-- What is below an item can be read again, whatever default the item names. -/
def Sound : Item → Prop
  | set _ _ _ entries => RootReadable entries
  | modifier _ _ _ contexts => ContextsReadable contexts

/-- An item that a reader can have given. -/
def Readable : Item → Prop
  | set _ _ _ entries => RootReadable entries
  | modifier _ _ choice contexts => ContextsReadable contexts ∧
      ∀ name, choice.defaultContext = some name → name ∈ contexts.map (·.name)

theorem Readable.sound {item : Item} (h : item.Readable) : item.Sound := by
  cases item with
  | set => exact h
  | modifier => exact h.1

theorem name_content (item : Item) : item.content.name = item.name := by
  cases item <;> rfl

end Item

/-- Items whose contents can be read again, with distinct names and ascending keys. -/
structure ItemsSound (items : List Item) : Prop where
  each : ∀ item ∈ items, item.Sound
  names : (items.map Item.name).Nodup
  orders : (items.map Item.order).Pairwise (· < ·)

/-- Items that a reader can have given. -/
structure ItemsReadable (items : List Item) : Prop where
  each : ∀ item ∈ items, item.Readable
  names : (items.map Item.name).Nodup
  orders : (items.map Item.order).Pairwise (· < ·)

theorem ContextsReadable.tail {c : Context} {cs : List Context} (h : ContextsReadable (c :: cs)) :
    ContextsReadable cs where
  entries c' hc' := h.entries c' (List.mem_cons_of_mem _ hc')
  names := (List.nodup_cons.1 h.names).2
  orders := (List.pairwise_cons.1 h.orders).2

theorem ItemsReadable.tail {item : Item} {items : List Item} (h : ItemsReadable (item :: items)) :
    ItemsReadable items where
  each item' hi' := h.each item' (List.mem_cons_of_mem _ hi')
  names := (List.nodup_cons.1 h.names).2
  orders := (List.pairwise_cons.1 h.orders).2

theorem ItemsReadable.sound {items : List Item} (h : ItemsReadable items) : ItemsSound items where
  each item hi := (h.each item hi).sound
  names := h.names
  orders := h.orders

theorem ItemsSound.tail {item : Item} {items : List Item} (h : ItemsSound (item :: items)) :
    ItemsSound items where
  each item' hi' := h.each item' (List.mem_cons_of_mem _ hi')
  names := (List.nodup_cons.1 h.names).2
  orders := (List.pairwise_cons.1 h.orders).2

/-! ## What is written -/

/-- The single source of a set or a context. -/
def sourcesJson (minimal : Bool) (es : Forest Pointer.Path) : Json :=
  .array [.object (forestMembers minimal none es)]

/-- Contexts as members by name. -/
def contextMembers (minimal : Bool) (cs : List Context) : Members :=
  cs.map fun c => (c.name, sourcesJson minimal c.entries)

/-- An item as members. -/
def Item.members (minimal : Bool) : Item → Members
  | .set _ _ tokens entries => [("type", .string "set"), ("name", .string tokens.name)]
      ++ describedMembers tokens.description tokens.extensions
      ++ [("sources", sourcesJson minimal entries)]
  | .modifier _ _ choice contexts => [("type", .string "modifier"), ("name", .string choice.name)]
      ++ describedMembers choice.description choice.extensions
      ++ Json.optionalMember "default" .string choice.defaultContext
      ++ [("contexts", .object (contextMembers minimal contexts))]

/-- An item as JSON. -/
def Item.toJson (minimal : Bool) (item : Item) : Json := .object (item.members minimal)

/-- The members of a document with given items. -/
def documentMembers (info : ResolverInfo) (items : List Json) : Members :=
  [("version", .string resolverVersion)] ++ infoMembers (some info)
    ++ [("resolutionOrder", .array items)]

/-- Items as a document. -/
def documentJson (minimal : Bool) (info : ResolverInfo) (items : List Item) : Json :=
  .object (documentMembers info (items.map (Item.toJson minimal)))

end DesignTokens.Resolver
