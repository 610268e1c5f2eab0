/-
What the reader of resolver documents gives. Whatever the document says, items
and contexts have distinct names and ascending keys, and hold trees that can be
read again (`sound_read`). A default names a context of the document, which is
left out if it could not be used; but then an issue was reported, so that
without issues all contexts are there (`readable_read`).
-/
import DesignTokens.Proofs.Document.Resolver.Readable
import DesignTokens.Proofs.Document.Tree.Reading

namespace DesignTokens

namespace Resolver

variable {options : ReadOptions} {doc : Json}

/-! ## Sources -/

section

variable (hdoc : doc.WellFormed)

include hdoc

theorem wellFormed_readSource {place : Pointer.Path} {source tree : Json} (hs : source.WellFormed)
    (h : (readSource doc place source).value = some tree) : tree.WellFormed := by
  have hfinish : ∀ found : Json, found.WellFormed → (if found.isObject then pure (some found)
      else Reading.withIssue none place .sourceNotAnObject : Reading (Option Json)).value = some tree →
      tree.WellFormed := by
    intro found hf h
    split at h <;> cases h
    exact hf
  simp only [readSource] at h
  cases hr : Pointer.reference? source with
  | none =>
    rw [hr] at h
    exact hfinish source hs h
  | some reference =>
    simp only [hr] at h
    by_cases hlocal : reference.toList.head? = some '#'
    · simp only [if_pos hlocal] at h
      cases hf : Pointer.atFragment doc reference with
      | error e =>
        simp only [hf] at h
        cases h
      | ok found =>
        simp only [hf] at h
        exact hfinish found (hdoc.of_atFragment hf) h
    · simp only [if_neg hlocal] at h
      cases h

theorem wellFormed_readSources {place : Pointer.Path} {index : Nat} {sources : List Json}
    (hs : ∀ v ∈ sources, v.WellFormed) :
    ∀ v ∈ (readSources options doc place index sources).value, v.WellFormed := by
  induction sources generalizing index with
  | nil => exact nofun
  | cons source sources ih =>
    obtain ⟨hsource, hsources⟩ := List.forall_mem_cons.1 hs
    intro v hv
    simp only [readSources, Reading.value_bind] at hv
    cases ht : (readSource doc (place ++ [toString index]) source).value with
    | none =>
      simp only [ht, Reading.value_bind, Reading.value_pure, List.nil_append] at hv
      exact ih hsources v hv
    | some tree =>
      have hw := wellFormed_readSource hdoc hsource ht
      simp only [ht] at hv
      split at hv
      · rcases List.mem_append.1 hv with hv | hv
        · rw [List.mem_singleton.1 hv]
          exact Tree.value_expandValues_wellFormed hw _
        · exact ih hsources v hv
      · rcases List.mem_append.1 hv with hv | hv
        · rw [List.mem_singleton.1 hv]
          exact hw
        · exact ih hsources v hv

theorem readable_readMerged {place : Pointer.Path} {sources : List Json}
    (hs : ∀ v ∈ sources, v.WellFormed) :
    RootReadable (readMerged options doc place sources).value := by
  have hw : (Json.mergeLayers isPlainToken
      (readSources options doc place 0 sources).value).WellFormed :=
    Json.wellFormed_mergeLayers (wellFormed_readSources hdoc hs)
  rw [readMerged, Reading.value_bind]
  split
  · next ms hms =>
    rw [hms] at hw
    exact Tree.readable_readRoot hw
  · exact ⟨trivial, by simp⟩

omit hdoc in
theorem accepted_readMerged (options : ReadOptions) (doc : Json) (place : Pointer.Path)
    (sources : List Json) : ForestAccepted (readMerged options doc place sources).value := by
  rw [readMerged, Reading.value_bind]
  split
  · exact Tree.accepted_readRoot place _
  · trivial

/-! ## Contexts -/

/-- Contexts that cannot be used are left out, and the others keep their keys and names. -/
theorem readContexts_sublist (options : ReadOptions) (place : Pointer.Path)
    {cs : List (String × String × Json)} (hw : ∀ c ∈ cs, c.2.2.WellFormed) :
    ((readContexts options doc place cs).value.map fun c => (c.order, c.name)).Sublist
        (cs.map fun c => (c.1, c.2.1)) ∧
      ∀ c ∈ (readContexts options doc place cs).value,
        RootReadable c.entries ∧ ForestAccepted c.entries := by
  induction cs with
  | nil => exact ⟨.slnil, nofun⟩
  | cons c cs ih =>
    obtain ⟨order, name, sources⟩ := c
    obtain ⟨hsources, hw⟩ := List.forall_mem_cons.1 hw
    obtain ⟨hmap, hentries⟩ := ih hw
    simp only [readContexts, List.map_cons]
    cases hs : sources.items? with
    | none => exact ⟨hmap.cons _, hentries⟩
    | some items =>
      refine ⟨hmap.cons_cons _, List.forall_mem_cons.2 ⟨⟨?_, ?_⟩, hentries⟩⟩
      · exact readable_readMerged hdoc (hsources.of_items? hs)
      · exact accepted_readMerged options doc _ items

/-- Contexts are read from the members of an object, each with a key. -/
theorem sound_readContexts {place : Pointer.Path} {ms : Members}
    (hms : (Json.object ms).WellFormed) :
    let cs := (readContexts options doc place ((OrderKey.initial ms.length).zip ms)).value
    ContextsReadable cs ∧ ∀ c ∈ cs, OrderKey.Accepted c.order ∧ ForestAccepted c.entries := by
  intro cs
  have hw : ∀ c ∈ (OrderKey.initial ms.length).zip ms, c.2.2.WellFormed := fun c hc =>
    Json.wellFormedMembers_iff.1 hms.2 c.2 (List.of_mem_zip hc).2
  obtain ⟨hmap, hentries⟩ := readContexts_sublist hdoc options place hw
  have hnames := hmap.map Prod.snd
  have horders := hmap.map Prod.fst
  simp only [List.map_map, Function.comp_def] at hnames horders
  have hzip := congrArg Dict.keys (OrderKey.map_snd_zip_initial ms)
  rw [Dict.keys, List.map_map] at hzip
  rw [OrderKey.map_fst_zip_initial] at horders
  refine ⟨⟨fun c hc => (hentries c hc).1, hnames.nodup (hzip ▸ hms.1), ?_⟩,
    fun c hc => ⟨?_, (hentries c hc).2⟩⟩
  · exact (OrderKey.pairwise_initial _).sublist horders
  · exact OrderKey.accepted_of_mem_initial (horders.subset (List.mem_map_of_mem hc))

end

section

variable {place : Pointer.Path}

/-- The contexts that are read are those that list sources. -/
theorem names_readContexts (cs : List (String × String × Json)) :
    (readContexts options doc place cs).value.map (·.name) =
      Dict.keys ((cs.map Prod.snd).filter fun c => c.2.items?.isSome) := by
  induction cs with
  | nil => rfl
  | cons c cs ih =>
    obtain ⟨order, name, sources⟩ := c
    rw [List.map_cons]
    cases hs : sources.items? with
    | none =>
      rw [List.filter_cons_of_neg (by simp [hs]), ← ih]
      simp only [readContexts, hs]
      rfl
    | some items =>
      rw [List.filter_cons_of_pos (by simp [hs]), Dict.keys_cons, ← ih]
      simp only [readContexts, hs]
      rfl

theorem reported_readContexts {cs : List (String × String × Json)} {name : String} {sources : Json}
    (hc : (name, sources) ∈ cs.map Prod.snd) (hs : sources.items? = none) :
    ⟨place ++ ["contexts", name], .contextWithoutSources⟩ ∈
      (readContexts options doc place cs).issues := by
  induction cs with
  | nil => cases hc
  | cons c cs ih =>
    obtain ⟨order, name', sources'⟩ := c
    simp only [readContexts]
    rcases List.mem_cons.1 hc with he | hc
    · cases he
      rw [hs]
      exact List.mem_cons_self
    · cases sources'.items? with
      | none => exact List.mem_append_right _ (List.mem_append_left _ (ih hc))
      | some items =>
        exact List.mem_append_right _ (List.mem_append_right _ (List.mem_append_left _ (ih hc)))

/-- Without issues no context is left out. -/
theorem map_name_readContexts {ms : Members} (hclean :
    (readContexts options doc place ((OrderKey.initial ms.length).zip ms)).issues = []) :
    (readContexts options doc place ((OrderKey.initial ms.length).zip ms)).value.map (·.name) =
      Dict.keys ms := by
  have hzip := OrderKey.map_snd_zip_initial ms
  have hlisted : ∀ c ∈ ms, c.2.items?.isSome := by
    rintro ⟨name, sources⟩ hc
    refine Option.isSome_iff_ne_none.2 fun hs => ?_
    have hissue : _ ∈ (readContexts options doc place _).issues :=
      reported_readContexts (hzip.symm ▸ hc) hs
    rw [hclean] at hissue
    cases hissue
  rw [names_readContexts, hzip, List.filter_eq_self.2 hlisted]

theorem get?_of_readString {ms : Members} {key text : String}
    (h : (readString ms place key).value = some text) : Dict.get? ms key = some (.string text) := by
  unfold readString at h
  split at h
  · cases h
  · next hg =>
    cases h
    exact hg
  · cases h

/-- A default is taken over if there is a context of that name, with or without sources. -/
theorem of_readDefault {ms contexts : Members} {name : String}
    (h : (readDefault ms place contexts).value = some name) :
    Dict.get? ms "default" = some (.string name) ∧ name ∈ Dict.keys contexts := by
  rw [readDefault, Reading.value_bind] at h
  split at h
  · cases h
  · next name' hname =>
    split at h
    · next hc =>
      cases h
      exact ⟨get?_of_readString hname, Dict.isSome_get?_iff.1 hc⟩
    · cases h

end

/-! ## Items -/

/-- Every key below an item may be given as a bound. -/
def Item.Accepted : Item → Prop
  | .set _ _ _ entries => ForestAccepted entries
  | .modifier _ _ _ contexts =>
    ∀ c ∈ contexts, OrderKey.Accepted c.order ∧ ForestAccepted c.entries

/-- An item that was read has the name and the key that it was read under. -/
structure Gives (order name : String) (item : Item) : Prop where
  order_eq : item.order = order
  name_eq : item.name = name
  sound : item.Sound
  accepted : item.Accepted

section

variable (hdoc : doc.WellFormed) {place : Pointer.Path} {order : String} {ms : Members}
  (hms : Json.WellFormedMembers ms) {item : Item}

include hdoc hms

theorem gives_readSet {tokens : TokenSet}
    (h : (readSet options doc place order ms tokens).value = some item) :
    Gives order tokens.name item := by
  unfold readSet at h
  split at h
  · cases h
  · next sources hs =>
    obtain ⟨v, hv, hi⟩ := Option.bind_eq_some_iff.1 hs
    cases h
    exact ⟨rfl, rfl, readable_readMerged hdoc ((Json.WellFormed.of_get? hms hv).of_items? hi),
      accepted_readMerged options doc _ sources⟩

theorem gives_readModifier {choice : Modifier}
    (h : (readModifier options doc place order ms choice).value = some item) :
    Gives order choice.name item := by
  unfold readModifier at h
  split at h
  · cases h
  · next contexts hs =>
    obtain ⟨v, hv, hm⟩ := Option.bind_eq_some_iff.1 hs
    have hw := (Json.WellFormed.of_get? hms hv).of_members? hm
    cases h
    exact ⟨rfl, rfl, (sound_readContexts hdoc hw).1, (sound_readContexts hdoc hw).2⟩

theorem gives_readBody {name : String} {kind : Kind}
    (h : (readBody options doc place order ms name kind).value = some item) :
    Gives order name item := by
  rw [readBody] at h
  cases kind with
  | set => exact gives_readSet hdoc hms h
  | modifier => exact gives_readModifier hdoc hms h

end

section

variable (options : ReadOptions) (doc : Json) (place : Pointer.Path) (order : String)
  (seen : List String) (item : Json)

/-- An item is left out, or it is read under a name that none before it has. -/
theorem readItem_cases :
    (readItem options doc place order seen item).value = (seen, none) ∨
    ∃ ms name kind, item = .object ms ∧ Dict.get? ms "name" = some (.string name) ∧
      name ∉ seen ∧ readItem options doc place order seen item =
        (do return (name :: seen, ← readBody options doc place order ms name kind)) := by
  cases item with
  | object ms =>
    simp only [readItem]
    split
    · exact .inl rfl
    · exact .inl rfl
    · next name kind hname _ =>
      by_cases hseen : name ∈ seen
      · exact .inl (by rw [if_pos hseen]; rfl)
      · obtain ⟨v, hv, hs⟩ := Option.bind_eq_some_iff.1 hname
        exact .inr ⟨ms, name, kind, rfl, Json.string?_eq_some_iff.1 hs ▸ hv, hseen, if_neg hseen⟩
  | _ => exact .inl rfl

theorem seen_readItem :
    ∀ name ∈ seen, name ∈ (readItem options doc place order seen item).value.1 := by
  intro name hname
  rcases readItem_cases options doc place order seen item with h | ⟨_, _, _, -, -, -, h⟩
  · rwa [h]
  · rw [h]
    exact List.mem_cons_of_mem _ hname

end

section

variable (hdoc : doc.WellFormed)

include hdoc

theorem gives_readItem {place : Pointer.Path} {order : String} {seen : List String} {item : Json}
    (hitem : item.WellFormed) {it : Item}
    (h : (readItem options doc place order seen item).value.2 = some it) :
    it.name ∉ seen ∧ it.name ∈ (readItem options doc place order seen item).value.1 ∧
      Gives order it.name it := by
  rcases readItem_cases options doc place order seen item with
    hr | ⟨ms, name, kind, rfl, -, hseen, hr⟩
  · rw [hr] at h
    cases h
  · rw [hr] at h ⊢
    have hgives := gives_readBody hdoc hitem.2 h
    rw [hgives.name_eq]
    exact ⟨hseen, List.mem_cons_self .., hgives⟩

/-- Items that cannot be used are left out, and the others keep their keys. -/
theorem readItems_sublist (options : ReadOptions) (seen : List String) (index : Nat)
    {items : List (String × Json)} (hw : ∀ item ∈ items, item.2.WellFormed) :
    ((readItems options doc seen index items).value.map Item.order).Sublist (items.map Prod.fst) ∧
      (∀ it ∈ (readItems options doc seen index items).value,
        it.Sound ∧ it.Accepted ∧ it.name ∉ seen) ∧
      ((readItems options doc seen index items).value.map Item.name).Nodup := by
  induction items generalizing seen index with
  | nil => exact ⟨.slnil, nofun, .nil⟩
  | cons item items ih =>
    obtain ⟨order, item⟩ := item
    obtain ⟨hitem, hitems⟩ := List.forall_mem_cons.1 hw
    have hseen := seen_readItem options doc ["resolutionOrder", toString index] order seen item
    simp only [readItems, Reading.value_bind, Reading.value_pure, List.map_cons]
    obtain ⟨horders, hsound, hnodup⟩ := ih
      (readItem options doc ["resolutionOrder", toString index] order seen item).value.1
      (index + 1) hitems
    have hrest : ∀ it ∈ (readItems options doc _ (index + 1) items).value,
        it.Sound ∧ it.Accepted ∧ it.name ∉ seen := fun it hit =>
      ⟨(hsound it hit).1, (hsound it hit).2.1, fun h => (hsound it hit).2.2 (hseen _ h)⟩
    cases hit :
      (readItem options doc ["resolutionOrder", toString index] order seen item).value.2 with
    | none => exact ⟨horders.cons _, hrest, hnodup⟩
    | some it =>
      obtain ⟨hnew, hown, hg⟩ := gives_readItem hdoc hitem hit
      refine ⟨?_, List.forall_mem_cons.2 ⟨⟨hg.sound, hg.accepted, hnew⟩, hrest⟩,
        List.nodup_cons.2 ⟨fun hm => ?_, hnodup⟩⟩
      · rw [Option.toList_some, List.singleton_append, List.map_cons, hg.order_eq]
        exact horders.cons_cons _
      · obtain ⟨it', hit', hname⟩ := List.mem_map.1 hm
        exact (hsound it' hit').2.2 (hname ▸ hown)

end

/-! ## Documents -/

theorem wellFormed_of_items? {ms : Members} (hms : Json.WellFormedMembers ms) {items : List Json}
    (h : items? ms = .ok items) : ∀ item ∈ items, item.WellFormed := by
  unfold items? at h
  split at h
  · cases h
  · split at h
    · split at h
      · next hs =>
        cases h
        obtain ⟨v, hv, hi⟩ := Option.bind_eq_some_iff.1 hs
        exact (Json.WellFormed.of_get? hms hv).of_items? hi
      · cases h
    · cases h

/-- **Whatever a document says**, its items have distinct names and ascending keys, and what is
below them can be read again. -/
theorem sound_read (options : ReadOptions) {doc : Json} (hdoc : doc.WellFormed) :
    ItemsSound (read options doc).value.items ∧
      ∀ item ∈ (read options doc).value.items, OrderKey.Accepted item.order ∧ item.Accepted := by
  have hnone : ItemsSound [] ∧
      ∀ item ∈ ([] : List Item), OrderKey.Accepted item.order ∧ item.Accepted :=
    ⟨⟨nofun, .nil, .nil⟩, nofun⟩
  cases doc with
  | object ms =>
    rw [read]
    split
    · exact hnone
    · next items hi =>
      have hw : ∀ item ∈ (OrderKey.initial items.length).zip items, item.2.WellFormed :=
        fun item hitem => wellFormed_of_items? hdoc.2 hi _ (List.of_mem_zip hitem).2
      obtain ⟨horders, hsound, hnodup⟩ := readItems_sublist hdoc options [] 0 hw
      rw [OrderKey.map_fst_zip_initial] at horders
      refine ⟨⟨fun it hit => (hsound it hit).1, hnodup, ?_⟩,
        fun it hit => ⟨?_, (hsound it hit).2.1⟩⟩
      · exact (OrderKey.pairwise_initial _).sublist horders
      · exact OrderKey.accepted_of_mem_initial (horders.subset (List.mem_map_of_mem hit))
  | _ => exact hnone

/-! ## Documents without issues -/

section

variable {place : Pointer.Path} {order : String} {ms : Members} {item : Item}

theorem readable_readModifier {choice : Modifier}
    (hclean : (readModifier options doc place order ms choice).issues = [])
    (h : (readModifier options doc place order ms choice).value = some item) (hs : item.Sound) :
    item.Readable := by
  unfold readModifier at hclean h
  split at h
  · cases h
  · next contexts hcs =>
    simp only [hcs, Reading.issues_bind_eq_nil_iff] at hclean
    cases h
    refine ⟨hs, fun name hname => ?_⟩
    rw [map_name_readContexts hclean.2.1]
    exact (of_readDefault hname).2

theorem readable_readBody {name : String} {kind : Kind}
    (hclean : (readBody options doc place order ms name kind).issues = [])
    (h : (readBody options doc place order ms name kind).value = some item) (hs : item.Sound) :
    item.Readable := by
  rw [readBody] at hclean h
  simp only [Reading.issues_bind_eq_nil_iff] at hclean
  cases kind with
  | set =>
    change (readSet _ _ _ _ _ _).value = some item at h
    unfold readSet at h
    split at h
    · cases h
    · cases h
      exact hs
  | modifier => exact readable_readModifier hclean.2.2 h hs

end

theorem readable_readItems {seen : List String} {index : Nat} {items : List (String × Json)}
    (hclean : (readItems options doc seen index items).issues = [])
    (hs : ∀ it ∈ (readItems options doc seen index items).value, it.Sound) :
    ∀ it ∈ (readItems options doc seen index items).value, it.Readable := by
  induction items generalizing seen index with
  | nil => exact nofun
  | cons item items ih =>
    obtain ⟨order, item⟩ := item
    simp only [readItems, Reading.issues_bind_eq_nil_iff] at hclean
    simp only [readItems, Reading.value_bind, Reading.value_pure, List.forall_mem_append] at hs ⊢
    refine ⟨fun it hit => ?_, ih hclean.2.1 hs.2⟩
    have hsound := hs.1 it hit
    rw [Option.mem_toList] at hit
    rcases readItem_cases options doc ["resolutionOrder", toString index] order seen item with
      hr | ⟨_, _, _, -, -, -, hr⟩
    · rw [hr] at hit
      cases hit
    · rw [hr] at hit hclean
      exact readable_readBody (Reading.issues_bind_eq_nil_iff.1 hclean.1).1 hit hsound

/-- **What is read of a document without issues can be read again.** -/
theorem readable_read (hdoc : doc.WellFormed) (hclean : (read options doc).issues = []) :
    ItemsReadable (read options doc).value.items := by
  have hsound := (sound_read options hdoc).1
  refine ⟨?_, hsound.names, hsound.orders⟩
  have heach := hsound.each
  cases doc with
  | object ms =>
    rw [read] at hclean heach ⊢
    split
    · exact List.forall_mem_nil _
    · next items hi =>
      simp only [hi, readItemList, Reading.issues_bind_eq_nil_iff] at hclean heach
      exact readable_readItems hclean.2.2.2.1 heach
  | _ => exact List.forall_mem_nil _

end Resolver

end DesignTokens
