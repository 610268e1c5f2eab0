/-
Reading resolver documents. A resolver document lists sets and modifiers. A set
has sources, as has each context of a modifier; the sources are tree documents,
or references to some inside the document, and are merged in their order, a
plain token over a plain token as a whole, before they are read as one tree.

A document without its version or its list of items is reported and not read.
An item that cannot be used is reported and left out.
-/
import DesignTokens.Document.Expansion
import DesignTokens.Document.Output
import DesignTokens.Document.Tree.Reader
import DesignTokens.Json.Merge

namespace DesignTokens.Resolver

/-- A context of a modifier, with its order key. -/
structure Context where
  order : String
  place : Pointer.Path
  name : String
  entries : Forest Pointer.Path
  deriving Repr

/-- An item of a resolver document, with its order key. -/
inductive Item where
  | set (order : String) (place : Pointer.Path) (tokens : TokenSet)
      (entries : Forest Pointer.Path)
  | modifier (order : String) (place : Pointer.Path) (choice : Modifier)
      (contexts : List Context)
  deriving Repr

/-- A resolver document. -/
structure Document where
  info : ResolverInfo
  items : List Item
  deriving Repr

/-- The document that says nothing. -/
def Document.empty : Document := ⟨⟨"", none⟩, []⟩

/-! ## Sources -/

/-- Whether an object is a plain token: a value, and neither children nor a `$root` token. -/
def isPlainToken (ms : Members) : Bool :=
  Dict.contains ms Key.value && ms.all fun m => !Name.isChild m.1

/-- The tree that a source stands for. -/
def readSource (doc : Json) (place : Pointer.Path) (source : Json) : Reading (Option Json) :=
  let target : Except Cause Json := match Pointer.reference? source with
    | none => .ok source
    | some reference =>
      if reference.toList.head? = some '#' then
        match Pointer.atFragment doc reference with
        | .ok found => .ok found
        | .error e => .error (.unresolvedSource reference e)
      else .error (.externalSource reference)
  match target with
  | .error cause => .withIssue none place cause
  | .ok tree => if tree.isObject then pure (some tree) else .withIssue none place .sourceNotAnObject

/-- The trees of a list of sources, the first of which has an index; bad ones are left out. -/
def readSources (options : ReadOptions) (doc : Json) (place : Pointer.Path) (index : Nat) :
    List Json → Reading (List Json)
  | [] => pure []
  | source :: sources => do
    let here := place ++ [toString index]
    let tree ← readSource doc here source
    let trees ← match tree with
      | none => pure []
      | some tree =>
        if options.expandReferences then do pure [← Expansion.expandValues tree here]
        else pure [tree]
    let rest ← readSources options doc place (index + 1) sources
    return trees ++ rest

/-- The entries of sources merged into one tree. -/
def readMerged (options : ReadOptions) (doc : Json) (place : Pointer.Path)
    (sources : List Json) : Reading (Forest Pointer.Path) := do
  let trees ← readSources options doc place 0 sources
  match Json.mergeLayers isPlainToken trees with
  | .object ms => Tree.readRoot place ms
  | _ => return []

/-! ## Items -/

/-- A member that must be a string if it is present. -/
def readString (ms : Members) (place : Pointer.Path) (key : String) : Reading (Option String) :=
  match Dict.get? ms key with
  | none => pure none
  | some (.string s) => pure (some s)
  | some _ => .withIssue none (place ++ [key]) (.stringExpected key)

/-- The `extensions` of an item. -/
def readExtensions (ms : Members) (place : Pointer.Path) : Reading (Option Members) :=
  match Dict.get? ms "extensions" with
  | none => pure none
  | some (.object extensions) => pure (some extensions)
  | some _ => .withIssue none (place ++ ["extensions"]) (.objectExpected "extensions")

/-- The contexts of a modifier, with an order key for each. -/
def readContexts (options : ReadOptions) (doc : Json) (place : Pointer.Path) :
    List (String × String × Json) → Reading (List Context)
  | [] => pure []
  | (order, name, sources) :: rest => do
    let here := place ++ ["contexts", name]
    let contexts ← match sources.items? with
      | none => .withIssue [] here .contextWithoutSources
      | some sources => do
        let entries ← readMerged options doc here sources
        pure [{ order, place := here, name, entries : Context }]
    let rest ← readContexts options doc place rest
    return contexts ++ rest

/-- The default context that an item names, if the item has it. -/
def readDefault (ms : Members) (place : Pointer.Path) (contexts : Members) :
    Reading (Option String) := do
  match ← readString ms place "default" with
  | none => return none
  | some name =>
    if Dict.contains contexts name then return some name
    else .withIssue none (place ++ ["default"]) (.undefinedDefault name)

/-- A set. -/
def readSet (options : ReadOptions) (doc : Json) (place : Pointer.Path) (order : String)
    (ms : Members) (set : TokenSet) : Reading (Option Item) :=
  match (Dict.get? ms "sources").bind Json.items? with
  | none => .withIssue none (place ++ ["sources"]) .setWithoutSources
  | some sources => do
    let entries ← readMerged options doc (place ++ ["sources"]) sources
    return some (.set order place set entries)

/-- A modifier; its default is known once its contexts are. -/
def readModifier (options : ReadOptions) (doc : Json) (place : Pointer.Path) (order : String)
    (ms : Members) (modifier : Modifier) : Reading (Option Item) :=
  match (Dict.get? ms "contexts").bind Json.members? with
  | none => .withIssue none (place ++ ["contexts"]) .modifierWithoutContexts
  | some contexts => do
    let defaultContext ← readDefault ms place contexts
    let contexts ← readContexts options doc place
      ((OrderKey.initial contexts.length).zip contexts)
    return some (.modifier order place { modifier with defaultContext } contexts)

/-- The kinds of item. -/
inductive Kind where
  | set
  | modifier
  deriving DecidableEq, Repr

/-- The kind that an item's `type` names. -/
def kind? (ms : Members) : Option Kind :=
  match Dict.get? ms "type" with
  | some (.string s) =>
    if s = "set" then some .set else if s = "modifier" then some .modifier else none
  | _ => none

/-- Reads an item that has a name and a kind. -/
def readBody (options : ReadOptions) (doc : Json) (place : Pointer.Path) (order : String)
    (ms : Members) (name : String) (kind : Kind) : Reading (Option Item) := do
  let description ← readString ms place "description"
  let extensions ← readExtensions ms place
  match kind with
  | .set => readSet options doc place order ms { name, description, extensions }
  | .modifier =>
    readModifier options doc place order ms
      { name, description, extensions, defaultContext := none }

/-- Reads an item; `seen` holds the names before it, and comes back with its own. -/
def readItem (options : ReadOptions) (doc : Json) (place : Pointer.Path) (order : String)
    (seen : List String) (item : Json) : Reading (List String × Option Item) :=
  match item with
  | .object ms =>
    match (Dict.get? ms "name").bind Json.string?, kind? ms with
    | none, _ => .withIssue (seen, none) (place ++ ["name"]) .itemWithoutName
    | some _, none => .withIssue (seen, none) (place ++ ["type"]) .itemWithoutType
    | some name, some kind =>
      if name ∈ seen then .withIssue (seen, none) (place ++ ["name"]) (.duplicateItem name)
      else do return (name :: seen, ← readBody options doc place order ms name kind)
  | _ => .withIssue (seen, none) place .itemNotAnObject

/-- Reads items, each with its order key, the first of which has an index. -/
def readItems (options : ReadOptions) (doc : Json) (seen : List String) (index : Nat) :
    List (String × Json) → Reading (List Item)
  | [] => pure []
  | (order, item) :: rest => do
    let place := ["resolutionOrder", toString index]
    let (seen, item) ← readItem options doc place order seen item
    let items ← readItems options doc seen (index + 1) rest
    return item.toList ++ items

/-! ## Documents -/

/-- What a document must have to be read at all: its version and its list of items. -/
def items? (ms : Members) : Except Issue (List Json) :=
  match Dict.get? ms "version" with
  | none => .error ⟨["version"], .missingVersion⟩
  | some version =>
    if version = .string resolverVersion then
      match (Dict.get? ms "resolutionOrder").bind Json.items? with
      | some items => .ok items
      | none => .error ⟨["resolutionOrder"], .missingResolutionOrder⟩
    else .error ⟨["version"], .unsupportedVersion version⟩

/-- Reports the lists by key that the format does not have. -/
def checkKeyedItems (ms : Members) : List String → Reading Unit
  | [] => pure ()
  | key :: keys => do
    if Dict.contains ms key then .report [key] (.keyedItems key)
    checkKeyedItems ms keys

/-- Reads a document that can be read at all. -/
def readItemList (options : ReadOptions) (ms : Members) (items : List Json) :
    Reading Document := do
  let name ← readString ms [] "name"
  let description ← readString ms [] "description"
  checkKeyedItems ms ["sets", "modifiers"]
  let items ← readItems options (.object ms) [] 0 ((OrderKey.initial items.length).zip items)
  return ⟨⟨name.getD "", description⟩, items⟩

/-- Reads a resolver document. -/
def read (options : ReadOptions) (doc : Json) : Reading Document :=
  match doc with
  | .object ms =>
    match items? ms with
    | .error issue => ⟨.empty, [issue]⟩
    | .ok items => readItemList options ms items
  | _ => .withIssue .empty [] .resolverNotAnObject

/-! ## Nodes -/

/-- The nodes of contexts below a modifier. -/
def contextNodes (scheme : IdScheme) (modifier : NodeId) (names : List String) (before : Nat) :
    List Context → List Placed
  | [] => []
  | c :: cs =>
    let path := names ++ [c.name]
    let id := scheme.id path before
    let below := forestNodes scheme (some id) path (before + 1) c.entries
    ⟨⟨id, some modifier, c.order, .context c.name⟩, c.place⟩ :: below
      ++ contextNodes scheme modifier names (before + 1 + below.length) cs

/-- The nodes of an item: its own, then those below it. -/
def Item.nodes (scheme : IdScheme) (before : Nat) : Item → List Placed
  | .set order place tokens entries =>
    let id := scheme.id [tokens.name] before
    ⟨⟨id, none, order, .set tokens⟩, place⟩
      :: forestNodes scheme (some id) [tokens.name] (before + 1) entries
  | .modifier order place choice contexts =>
    let id := scheme.id [choice.name] before
    ⟨⟨id, none, order, .modifier choice⟩, place⟩
      :: contextNodes scheme id [choice.name] (before + 1) contexts

/-- The nodes of items, one after another. -/
def itemNodes (scheme : IdScheme) (before : Nat) : List Item → List Placed
  | [] => []
  | item :: items =>
    let own := item.nodes scheme before
    own ++ itemNodes scheme (before + own.length) items

/-- The nodes and issues of a resolver document, and what it says of itself. -/
def parse (scheme : IdScheme) (options : ReadOptions) (doc : Json) : ResolverInfo × Output :=
  let r := read options doc
  (r.value.info, Output.ofPlaced options (itemNodes scheme 0 r.value.items) r.issues)

end DesignTokens.Resolver
