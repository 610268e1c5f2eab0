/-
Reading what was written of a resolver document. The single source of a set or
a context stands for itself and is merged with nothing, so that its tree comes
back (`readMerged_forestMembers`); the items come back with keys given anew and
places in the new document (`read_documentJson`), and nothing is reported.
-/
import DesignTokens.Proofs.Document.Resolver.Readable
import DesignTokens.Proofs.Document.Tree.ReadBack
import DesignTokens.Proofs.Json.WellFormed

namespace DesignTokens.Resolver

/-- Contexts as they come back, with given keys. -/
def contextsRebuilt (minimal : Bool) (place : Pointer.Path) :
    List String → List Context → List Context
  | order :: orders, c :: cs =>
    let here := place ++ ["contexts", c.name]
    ⟨order, here, c.name, forestRebuilt minimal here none c.entries⟩
      :: contextsRebuilt minimal place orders cs
  | _, _ => []

/-- An item as it comes back. -/
def Item.rebuilt (minimal : Bool) (place : Pointer.Path) (order : String) : Item → Item
  | .set _ _ tokens entries =>
    .set order place tokens (forestRebuilt minimal (place ++ ["sources"]) none entries)
  | .modifier _ _ choice contexts => .modifier order place choice
      (contextsRebuilt minimal place (OrderKey.initial contexts.length) contexts)

/-- Items as they come back, with given keys, the first of which has an index. -/
def itemsRebuilt (minimal : Bool) (index : Nat) : List String → List Item → List Item
  | order :: orders, item :: items => item.rebuilt minimal ["resolutionOrder", toString index] order
      :: itemsRebuilt minimal (index + 1) orders items
  | _, _ => []

variable {options : ReadOptions} {doc : Json} {minimal : Bool}

/-! ## Sources -/

theorem isObject_of_mem_forestMembers {ι : Type} {es : List (String × Entry ι)}
    {m : String × Json} (hm : m ∈ forestMembers minimal none es) : m.2.isObject := by
  induction es with
  | nil => cases hm
  | cons e es ih =>
    rcases List.mem_cons.1 hm with he | hm
    · rw [he]
      cases e.2 <;> rfl
    · exact ih hm

/-- No member of a tree is a string, and so a tree is not a reference. -/
theorem reference?_forestMembers {ι : Type} (es : List (String × Entry ι)) :
    Pointer.reference? (.object (forestMembers minimal none es)) = none := by
  unfold Pointer.reference?
  split
  · next key target he =>
    have hm : (key, Json.string target) ∈ forestMembers minimal none es := by
      rw [Json.object.inj he]
      exact List.mem_singleton_self _
    cases isObject_of_mem_forestMembers hm
  · rfl

theorem readMerged_forestMembers {place : Pointer.Path} {es : Forest Pointer.Path}
    (h : RootReadable es) :
    readMerged options doc place [.object (forestMembers minimal none es)] =
      pure (forestRebuilt minimal place none es) := by
  have hsource : readSource doc (place ++ [toString 0]) (.object (forestMembers minimal none es)) =
      pure (some (.object (forestMembers minimal none es))) := by
    simp only [readSource, reference?_forestMembers]
    rfl
  have hsources : readSources options doc place 0 [.object (forestMembers minimal none es)] =
      pure [.object (forestMembers minimal none es)] := by
    simp only [readSources, hsource, expandValues_forestMembers _ minimal h.writable, pure_bind,
      List.append_nil]
    split <;> rfl
  have hmerged : Json.mergeLayers isPlainToken [.object (forestMembers minimal none es)] =
      .object (forestMembers minimal none es) := by
    refine Json.mergeLayers_singleton ?_
    rw [keys_forestMembers]
    exact (forestWritable_iff.1 h.writable.forest).2
  rw [readMerged, hsources, pure_bind, hmerged]
  exact readRoot_forestMembers minimal place h

/-! ## Contexts -/

theorem readContexts_contextMembers {place : Pointer.Path} (orders : List String)
    {cs : List Context} (h : ∀ c ∈ cs, RootReadable c.entries) :
    readContexts options doc place (orders.zip (contextMembers minimal cs)) =
      pure (contextsRebuilt minimal place orders cs) := by
  induction cs generalizing orders with
  | nil =>
    rw [contextMembers, List.map_nil, List.zip_nil_right]
    cases orders <;> rfl
  | cons c cs ih =>
    cases orders with
    | nil => rfl
    | cons order orders =>
      obtain ⟨hc, hcs⟩ := List.forall_mem_cons.1 h
      have hrest := ih orders hcs
      rw [contextMembers, List.map_cons, List.zip_cons_cons, ← contextMembers, readContexts]
      simp only [sourcesJson, Json.items?, readMerged_forestMembers hc, pure_bind, hrest]
      rfl

theorem keys_contextMembers (minimal : Bool) (cs : List Context) :
    Dict.keys (contextMembers minimal cs) = cs.map (·.name) := by
  rw [contextMembers, Dict.keys, List.map_map]
  rfl

/-! ## Items -/

theorem get?_sources_members {order : String} {place : Pointer.Path} {tokens : TokenSet}
    {es : Forest Pointer.Path} :
    Dict.get? ((Item.set order place tokens es).members minimal) "sources" =
      some (sourcesJson minimal es) := by
  obtain ⟨_, description, extensions⟩ := tokens
  cases description <;> cases extensions <;> rfl

theorem readSet_members {place place' : Pointer.Path} {order order' : String} {tokens : TokenSet}
    {es : Forest Pointer.Path} (h : RootReadable es) :
    readSet options doc place order ((Item.set order' place' tokens es).members minimal) tokens =
      pure (some ((Item.set order' place' tokens es).rebuilt minimal place order)) := by
  unfold readSet
  simp only [get?_sources_members, Option.bind_some, sourcesJson, Json.items?,
    readMerged_forestMembers h, pure_bind]
  rfl

theorem get?_contexts_members {order : String} {place : Pointer.Path} {choice : Modifier}
    {cs : List Context} : Dict.get? ((Item.modifier order place choice cs).members minimal)
      "contexts" = some (.object (contextMembers minimal cs)) := by
  obtain ⟨_, description, extensions, defaultContext⟩ := choice
  cases description <;> cases extensions <;> cases defaultContext <;> rfl

/-- The default that is written is defined, and so it comes back. -/
theorem readDefault_members {place place' : Pointer.Path} {order : String} {choice : Modifier}
    {cs : List Context}
    (h : ∀ name, choice.defaultContext = some name → name ∈ cs.map (·.name)) :
    readDefault ((Item.modifier order place' choice cs).members minimal) place
      (contextMembers minimal cs) = pure choice.defaultContext := by
  have hd : readString ((Item.modifier order place' choice cs).members minimal) place "default" =
      pure choice.defaultContext := by
    obtain ⟨_, description, extensions, defaultContext⟩ := choice
    cases description <;> cases extensions <;> cases defaultContext <;> rfl
  rw [readDefault, hd, pure_bind]
  cases hn : choice.defaultContext with
  | none => rfl
  | some name =>
    have hk : Dict.contains (contextMembers minimal cs) name := by
      rw [Dict.contains, Dict.isSome_get?_iff, keys_contextMembers]
      exact h name hn
    simp only [hk, if_true]

theorem readModifier_members {place place' : Pointer.Path} {order order' : String}
    {choice : Modifier} {cs : List Context} (h : (Item.modifier order' place' choice cs).Readable) :
    readModifier options doc place order ((Item.modifier order' place' choice cs).members minimal)
        { choice with defaultContext := none } =
      pure (some ((Item.modifier order' place' choice cs).rebuilt minimal place order)) := by
  have hlength : (contextMembers minimal cs).length = cs.length := List.length_map _
  unfold readModifier
  simp only [get?_contexts_members, Option.bind_some, Json.members?, readDefault_members h.2,
    pure_bind, hlength, readContexts_contextMembers _ h.1.entries]
  rfl

/-- What an item's name, kind, description and extensions are does not hang on the rest of it. -/
theorem readItem_of_members {place : Pointer.Path} {order : String} {seen : List String}
    {ms : Members} {name : String} {kind : Kind} {description : Option String}
    {extensions : Option Members} (hname : Dict.get? ms "name" = some (.string name))
    (hkind : kind? ms = some kind) (hseen : name ∉ seen)
    (hd : readString ms place "description" = pure description)
    (he : readExtensions ms place = pure extensions) :
    readItem options doc place order seen (.object ms) = (do
      let item ← match kind with
        | .set => readSet options doc place order ms ⟨name, description, extensions⟩
        | .modifier => readModifier options doc place order ms ⟨name, description, extensions, none⟩
      return (name :: seen, item)) := by
  simp only [readItem, hname, Option.bind_some, Json.string?, hkind, if_neg hseen, readBody, hd, he,
    pure_bind]
  cases kind <;> rfl

theorem readItem_toJson {place : Pointer.Path} {order : String} {seen : List String} {item : Item}
    (h : item.Readable) (hseen : item.name ∉ seen) :
    readItem options doc place order seen (item.toJson minimal) =
      pure (item.name :: seen, some (item.rebuilt minimal place order)) := by
  cases item with
  | set order' place' tokens entries =>
    have hd : readString ((Item.set order' place' tokens entries).members minimal) place
        "description" = pure tokens.description := by
      obtain ⟨_, description, extensions⟩ := tokens
      cases description <;> cases extensions <;> rfl
    have he : readExtensions ((Item.set order' place' tokens entries).members minimal) place =
        pure tokens.extensions := by
      obtain ⟨_, description, extensions⟩ := tokens
      cases description <;> cases extensions <;> rfl
    rw [Item.toJson, readItem_of_members rfl rfl hseen hd he]
    show (readSet options doc place order _ tokens >>= _) = _
    rw [readSet_members h, pure_bind]
  | modifier order' place' choice contexts =>
    have hd : readString ((Item.modifier order' place' choice contexts).members minimal) place
        "description" = pure choice.description := by
      obtain ⟨_, description, extensions, defaultContext⟩ := choice
      cases description <;> cases extensions <;> cases defaultContext <;> rfl
    have he : readExtensions ((Item.modifier order' place' choice contexts).members minimal) place =
        pure choice.extensions := by
      obtain ⟨_, description, extensions, defaultContext⟩ := choice
      cases description <;> cases extensions <;> cases defaultContext <;> rfl
    rw [Item.toJson, readItem_of_members rfl rfl hseen hd he]
    show (readModifier options doc place order _ { choice with defaultContext := none } >>= _) = _
    rw [readModifier_members h, pure_bind]

/-- Items come back one after another, as their names are distinct. -/
theorem readItems_toJson {seen : List String} (index : Nat) (orders : List String)
    {items : List Item} (h : ∀ item ∈ items, item.Readable) (hn : (items.map Item.name).Nodup)
    (hs : ∀ item ∈ items, item.name ∉ seen) :
    readItems options doc seen index (orders.zip (items.map (Item.toJson minimal))) =
      pure (itemsRebuilt minimal index orders items) := by
  induction items generalizing seen index orders with
  | nil =>
    rw [List.map_nil, List.zip_nil_right]
    cases orders <;> rfl
  | cons item items ih =>
    cases orders with
    | nil => rfl
    | cons order orders =>
      obtain ⟨hitem, hitems⟩ := List.forall_mem_cons.1 h
      obtain ⟨hname, hnames⟩ := List.nodup_cons.1 hn
      obtain ⟨hseen, hrest⟩ := List.forall_mem_cons.1 hs
      have hfresh : ∀ it ∈ items, it.name ∉ item.name :: seen := by
        intro it hit
        rw [List.mem_cons, not_or]
        exact ⟨fun he => hname (List.mem_map.2 ⟨it, hit, he⟩), hrest it hit⟩
      rw [List.map_cons, List.zip_cons_cons, readItems]
      simp only [readItem_toJson hitem hseen, pure_bind, ih (index + 1) orders hitems hnames hfresh]
      rfl

/-! ## Documents -/

theorem items?_documentMembers (info : ResolverInfo) (items : List Json) :
    items? (documentMembers info items) = .ok items := by
  obtain ⟨name, description⟩ := info
  by_cases hn : name.isEmpty <;> cases description <;>
    simp only [documentMembers, infoMembers, hn] <;> rfl

/-- An empty name is not written, and one that is not there is read as empty. -/
theorem readString_name_documentMembers (info : ResolverInfo) (items : List Json) :
    ∃ name, readString (documentMembers info items) [] "name" = pure name ∧
      name.getD "" = info.name := by
  obtain ⟨name, description⟩ := info
  by_cases hn : name.isEmpty
  · refine ⟨none, ?_, (String.isEmpty_iff.1 hn).symm⟩
    cases description <;> simp only [documentMembers, infoMembers, hn] <;> rfl
  · refine ⟨some name, ?_, rfl⟩
    cases description <;> simp only [documentMembers, infoMembers, hn] <;> rfl

theorem readString_description_documentMembers (info : ResolverInfo) (items : List Json) :
    readString (documentMembers info items) [] "description" = pure info.description := by
  obtain ⟨name, description⟩ := info
  by_cases hn : name.isEmpty <;> cases description <;>
    simp only [documentMembers, infoMembers, hn] <;> rfl

theorem checkKeyedItems_documentMembers (info : ResolverInfo) (items : List Json) :
    checkKeyedItems (documentMembers info items) ["sets", "modifiers"] = pure () := by
  obtain ⟨name, description⟩ := info
  by_cases hn : name.isEmpty <;> cases description <;>
    simp only [documentMembers, infoMembers, hn] <;> rfl

/-- **A written document comes back**, with its info and its items and without an issue. -/
theorem read_documentJson (options : ReadOptions) (minimal : Bool) (info : ResolverInfo)
    {items : List Item} (h : ItemsReadable items) :
    read options (documentJson minimal info items) =
      pure ⟨info, itemsRebuilt minimal 0 (OrderKey.initial items.length) items⟩ := by
  obtain ⟨name, hname, hinfo⟩ :=
    readString_name_documentMembers info (items.map (Item.toJson minimal))
  simp only [documentJson, read, items?_documentMembers, readItemList, hname,
    readString_description_documentMembers, checkKeyedItems_documentMembers, pure_bind,
    List.length_map, readItems_toJson 0 _ h.each h.names (fun _ _ => List.not_mem_nil), hinfo]

end DesignTokens.Resolver
