/-
The defaults of modifiers. A default is taken over if the document has a context
of that name, and a context becomes a node if the document lists sources for it.
These are two conditions: a modifier may name a default that is no node.

What a reader gives for a modifier is told from the object that it reads
(`ReadFrom`), and the nodes below a modifier from the contexts that it has
(`Grove.Over`); so a default has its context among the nodes if and only if the
document lists sources for that one (`context_of_default_iff`).
-/
import DesignTokens.Proofs.Document.Resolver.Forested

namespace DesignTokens

theorem Content.isEntry_of_mayHold {c c' : Content} (hc : c.isEntry) (h : c.mayHold c') :
    c'.isEntry := by
  cases c with
  | token t => cases h
  | group g => exact h
  | _ => cases hc

namespace Grove

/-- Every content stands in a relation to the keys and contents of the nodes right below it. -/
def Over (R : Content → List (String × Content) → Prop) : Grove → Prop
  | nil => True
  | node _ _ content below next => R content below.tops ∧ below.Over R ∧ next.Over R

section

variable {R : Content → List (String × Content) → Prop} {g : Grove}

theorem Over.numbered (h : g.Over R) (start : String) (before : Nat) :
    (g.numbered start before).Over R := by
  induction g generalizing before with
  | nil => trivial
  | node id o c below next ihb ihn =>
    obtain ⟨hown, hbelow, hnext⟩ := h
    refine ⟨?_, ihb hbelow _, ihn hnext _⟩
    rwa [tops_numbered]

theorem Over.scheduled (h : g.Over R) (scheme : IdScheme) : (g.scheduled scheme).Over R := by
  cases scheme with
  | path => exact h
  | sequential start => exact h.numbered start 0

theorem map_heads (g : Grove) (p : Option NodeId) :
    (g.heads p).map (fun n => (n.order, n.content)) = g.tops := by
  induction g with
  | nil => rfl
  | node id o c below next ihb ihn => rw [heads, tops, List.map_cons, ihn]

/-- In a store of the grove the nodes right below another one are its children. -/
theorem Over.of_mem_nodes (h : g.Over R) {s : Store} (hs : g.Holds s) {p : Option NodeId}
    {n : Node} (hn : n ∈ g.nodes p) :
    R n.content ((s.children (some n.id)).map fun c => (c.order, c.content)) := by
  induction g generalizing p with
  | nil => cases hn
  | node id o c below next ihb ihn =>
    obtain ⟨hown, hbelow, hnext⟩ := h
    obtain ⟨hchildren, hsb, hsn⟩ := hs
    rcases List.mem_cons.1 hn with rfl | hn
    · rwa [hchildren, map_heads]
    · rcases List.mem_append.1 hn with hn | hn
      · exact ihb hbelow hsb hn
      · exact ihn hnext hsn hn

/-- Below an entry of a tree there are entries alone. -/
theorem Fits.over_of_entries {may : Content → Bool} (hmay : ∀ c, may c → c.isEntry)
    (hR : ∀ c tops, c.isEntry → R c tops) (h : g.Fits may) : g.Over R := by
  induction g generalizing may with
  | nil => trivial
  | node id o c below next ihb ihn =>
    obtain ⟨hown, hbelow, hnext⟩ := h
    have hentry := hmay c hown
    have hheld : ∀ c', c.mayHold c' → c'.isEntry := fun _ => Content.isEntry_of_mayHold hentry
    exact ⟨hR c _ hentry, ihb hheld hbelow, ihn hmay hnext⟩

end

end Grove

namespace Resolver

/-! ## Reading a modifier -/

/-- What a document lists as an item at an index. -/
def item? (doc : Json) (index : Nat) : Option Json :=
  match doc with
  | .object ms =>
    match items? ms with
    | .ok items => items[index]?
    | .error _ => none
  | _ => none

theorem wellFormed_of_item? {doc : Json} (hdoc : doc.WellFormed) {index : Nat} {item : Json}
    (h : item? doc index = some item) : item.WellFormed := by
  cases doc with
  | object ms =>
    rw [item?] at h
    cases hi : items? ms with
    | error issue =>
      rw [hi] at h
      cases h
    | ok items =>
      rw [hi] at h
      exact wellFormed_of_items? hdoc.2 hi item (List.mem_of_getElem? h)
  | _ => cases h

/-- What was read as a modifier with contexts at a place says what the object there says, except
for contexts without sources. These are reported. -/
structure ReadFrom (ms contexts : Members) (place : Pointer.Path) (issues : List Issue)
    (choice : Modifier) (cs : List Context) : Prop where
  name : Dict.get? ms "name" = some (.string choice.name)
  offered : Dict.get? ms "contexts" = some (.object contexts)
  ofDefault : ∀ d, choice.defaultContext = some d →
    Dict.get? ms "default" = some (.string d) ∧ d ∈ Dict.keys contexts
  names : cs.map (·.name) = Dict.keys (contexts.filter fun c => c.2.items?.isSome)
  reported : ∀ name sources, (name, sources) ∈ contexts → sources.items? = none →
    ⟨place ++ ["contexts", name], .contextWithoutSources⟩ ∈ issues

theorem ReadFrom.mono {ms contexts : Members} {place : Pointer.Path} {issues issues' : List Issue}
    {choice : Modifier} {cs : List Context} (h : ReadFrom ms contexts place issues choice cs)
    (hi : ∀ issue ∈ issues, issue ∈ issues') : ReadFrom ms contexts place issues' choice cs :=
  { h with reported := fun name sources hc hs => hi _ (h.reported name sources hc hs) }

section

variable {options : ReadOptions} {doc : Json} {place : Pointer.Path} {order order' : String} {place' : Pointer.Path} {ms : Members} {m : Modifier}
  {cs : List Context}

theorem readSet_ne_modifier {tokens : TokenSet} {choice : Modifier} :
    (readSet options doc place order ms tokens).value ≠ some (.modifier order' place' choice cs) := by
  intro h
  unfold readSet at h
  split at h <;> cases h

theorem readFrom_readModifier {choice : Modifier}
    (hname : Dict.get? ms "name" = some (.string choice.name))
    (h : (readModifier options doc place order ms choice).value =
      some (.modifier order' place' m cs)) :
    ∃ contexts, ReadFrom ms contexts place (readModifier options doc place order ms choice).issues
      m cs := by
  unfold readModifier at h ⊢
  cases hcs : (Dict.get? ms "contexts").bind Json.members? with
  | none =>
    rw [hcs] at h
    cases h
  | some contexts =>
    simp only [hcs] at h ⊢
    cases h
    have hzip := OrderKey.map_snd_zip_initial contexts
    refine ⟨contexts, hname, ?_, fun d hd => of_readDefault hd, ?_, fun name sources hc hs => ?_⟩
    · obtain ⟨v, hv, hm⟩ := Option.bind_eq_some_iff.1 hcs
      exact Json.members?_eq_some_iff.1 hm ▸ hv
    · exact (names_readContexts _).trans (by rw [hzip])
    · rw [← hzip] at hc
      exact List.mem_append_right _ (List.mem_append_left _ (reported_readContexts hc hs))

theorem readFrom_readBody {name : String} {kind : Kind}
    (hname : Dict.get? ms "name" = some (.string name))
    (h : (readBody options doc place order ms name kind).value =
      some (.modifier order' place' m cs)) :
    ∃ contexts, ReadFrom ms contexts place (readBody options doc place order ms name kind).issues
      m cs := by
  rw [readBody] at h ⊢
  cases kind with
  | set => exact absurd h readSet_ne_modifier
  | modifier =>
    obtain ⟨contexts, hfrom⟩ := readFrom_readModifier hname h
    exact ⟨contexts, hfrom.mono fun _ hi =>
      List.mem_append_right _ (List.mem_append_right _ hi)⟩

theorem readFrom_readItem {seen : List String} {item : Json}
    (h : (readItem options doc place order seen item).value.2 =
      some (.modifier order' place' m cs)) :
    ∃ ms contexts, item = .object ms ∧
      ReadFrom ms contexts place (readItem options doc place order seen item).issues m cs := by
  rcases readItem_cases options doc place order seen item with
    hr | ⟨ms, name, kind, rfl, hname, -, hr⟩
  · rw [hr] at h
    cases h
  · rw [hr] at h ⊢
    obtain ⟨contexts, hfrom⟩ := readFrom_readBody hname h
    exact ⟨ms, contexts, rfl, hfrom.mono fun _ hi => List.mem_append_left _ hi⟩

theorem readFrom_readItems {seen : List String} {index : Nat} {items : List (String × Json)}
    (h : Item.modifier order' place' m cs ∈ (readItems options doc seen index items).value) :
    ∃ k ms contexts, (items.map Prod.snd)[k]? = some (.object ms) ∧
      ReadFrom ms contexts ["resolutionOrder", toString (index + k)]
        (readItems options doc seen index items).issues m cs := by
  induction items generalizing seen index with
  | nil => cases h
  | cons item items ih =>
    obtain ⟨order, item⟩ := item
    simp only [readItems, Reading.value_bind, Reading.value_pure] at h
    rcases List.mem_append.1 h with h | h
    · obtain ⟨ms, contexts, rfl, hfrom⟩ := readFrom_readItem (Option.mem_toList.1 h)
      exact ⟨0, ms, contexts, rfl, hfrom.mono fun _ hi => List.mem_append_left _ hi⟩
    · obtain ⟨k, ms, contexts, hk, hfrom⟩ := ih h
      refine ⟨k + 1, ms, contexts, hk, ?_⟩
      rw [Nat.add_assoc, Nat.add_comm 1] at hfrom
      exact hfrom.mono fun _ hi => List.mem_append_right _ (List.mem_append_left _ hi)

theorem readFrom_read (h : Item.modifier order' place' m cs ∈ (read options doc).value.items) :
    ∃ index ms contexts, item? doc index = some (.object ms) ∧
      ReadFrom ms contexts ["resolutionOrder", toString index] (read options doc).issues m cs := by
  cases doc with
  | object ms =>
    rw [read] at h ⊢
    cases hi : items? ms with
    | error issue =>
      rw [hi] at h
      cases h
    | ok items =>
      simp only [hi, readItemList] at h ⊢
      obtain ⟨k, item, contexts, hk, hfrom⟩ := readFrom_readItems h
      rw [OrderKey.map_snd_zip_initial] at hk
      rw [Nat.zero_add] at hfrom
      refine ⟨k, item, contexts, ?_, hfrom.mono fun _ hi => ?_⟩
      · rw [item?, hi]
        exact hk
      · simp only [Reading.issues_bind, List.mem_append]
        exact .inr (.inr (.inr (.inl hi)))
  | _ => cases h

end

/-! ## Below a modifier -/

/-- What is right below a modifier's node are the contexts that the modifier has among items. -/
def Shows (items : List Item) (content : Content) (tops : List (String × Content)) : Prop :=
  ∀ m, content = .modifier m → ∃ order place cs, Item.modifier order place m cs ∈ items ∧
    tops = cs.map fun c => (c.order, .context c.name)

theorem shows_of_entry (items : List Item) (c : Content) (tops : List (String × Content))
    (hc : c.isEntry) : Shows items c tops := by
  rintro m rfl
  cases hc

theorem over_forestGrove (items : List Item) (names : List String) (es : Forest Pointer.Path) :
    (forestGrove names es).Over (Shows items) :=
  (fits_forestGrove names es).over_of_entries (fun _ hc => hc) (shows_of_entry items)

theorem over_contextsGrove (items : List Item) (names : List String) (cs : List Context) :
    (contextsGrove names cs).Over (Shows items) := by
  induction cs with
  | nil => trivial
  | cons c cs ih => exact ⟨nofun, over_forestGrove items (names ++ [c.name]) c.entries, ih⟩

theorem over_itemsGrove {all items : List Item} (h : ∀ item ∈ items, item ∈ all) :
    (itemsGrove items).Over (Shows all) := by
  induction items with
  | nil => trivial
  | cons item items ih =>
    obtain ⟨hitem, hitems⟩ := List.forall_mem_cons.1 h
    cases item with
    | set order place tokens entries =>
      exact ⟨nofun, over_forestGrove all [tokens.name] entries, ih hitems⟩
    | modifier order place choice contexts =>
      refine ⟨fun m hm => ?_, over_contextsGrove all [choice.name] contexts, ih hitems⟩
      cases hm
      exact ⟨order, place, contexts, hitem, tops_contextsGrove [choice.name] contexts⟩

/-- The contexts below a modifier's node are those of the modifier that was read. -/
theorem exists_item_of_modifier (scheme : IdScheme) (options : ReadOptions) {doc : Json}
    (hdoc : doc.WellFormed) {n : Node} {m : Modifier}
    (hn : n ∈ (parse scheme options doc).2.nodes) (hm : n.content = .modifier m) :
    ∃ order place cs, Item.modifier order place m cs ∈ (read options doc).value.items ∧
      ∀ name, (∃ c ∈ (parse scheme options doc).2.nodes,
        c.parent = some n.id ∧ c.content = .context name) ↔ name ∈ cs.map (·.name) := by
  obtain ⟨hsound, haccepted⟩ := sound_read options hdoc
  have hformed := (formed_itemsGrove hsound haccepted).scheduled scheme
  have hids := Grove.nodup_ids_scheduled scheme
    ((pathed_itemsGrove _).nodup_ids_of_orderly (orderly_itemsGrove hsound))
  have hnodes : (parse scheme options doc).2.nodes =
      ((itemsGrove (read options doc).value.items).scheduled scheme).nodes none :=
    (nodes_scheduled_itemsGrove scheme _).symm
  have hover := ((over_itemsGrove fun _ h => h).scheduled scheme).of_mem_nodes
    (Grove.holds_ofNodes hids hformed.orderly.keyed) (hnodes ▸ hn)
  obtain ⟨order, place, cs, hitem, htops⟩ := hover m hm
  refine ⟨order, place, cs, hitem, fun name => ?_⟩
  rw [Grove.children_ofNodes hids hformed.orderly.keyed, ← hnodes] at htops
  have hcontents := congrArg (List.map Prod.snd) htops
  simp only [List.map_map, Function.comp_def] at hcontents
  have hmem : Content.context name ∈
      ((parse scheme options doc).2.nodes.filter fun c => c.parent = some n.id).map Node.content ↔
      Content.context name ∈ cs.map fun c => Content.context c.name := by
    rw [← hcontents]
  simpa [and_assoc] using hmem

/--
**A default has its context if the document lists sources for it.** Whatever a
document says, a modifier with a default was read from an item that names this
default and has a context of that name. Below the modifier stands a context of
that name if and only if the one in the document is a list of sources; if it is
none, it is reported, and the modifier has its default all the same.
-/
theorem context_of_default_iff (scheme : IdScheme) (options : ReadOptions) {doc : Json}
    (hdoc : doc.WellFormed) {n : Node} {m : Modifier} {d : String}
    (hn : n ∈ (parse scheme options doc).2.nodes) (hm : n.content = .modifier m)
    (hd : m.defaultContext = some d) :
    ∃ index item sources, item? doc index = some item ∧
      item.member? "name" = some (.string m.name) ∧
      item.member? "default" = some (.string d) ∧
      (item.member? "contexts").bind (·.member? d) = some sources ∧
      ((∃ c ∈ (parse scheme options doc).2.nodes,
        c.parent = some n.id ∧ c.content = .context d) ↔ sources.items?.isSome) ∧
      (sources.items? = none → ⟨["resolutionOrder", toString index, "contexts", d],
        .contextWithoutSources⟩ ∈ (parse scheme options doc).2.issues) := by
  obtain ⟨order, place, cs, hitem, hbelow⟩ := exists_item_of_modifier scheme options hdoc hn hm
  obtain ⟨index, ms, contexts, hi, hfrom⟩ := readFrom_read hitem
  obtain ⟨hdefault, hkey⟩ := hfrom.ofDefault d hd
  obtain ⟨sources, hsources⟩ := Option.isSome_iff_exists.1 (Dict.isSome_get?_iff.2 hkey)
  refine ⟨index, .object ms, sources, hi, hfrom.name, hdefault, ?_, ?_, fun hs => ?_⟩
  · simp [Json.member?, Json.members?, hfrom.offered, hsources]
  · have hw := (wellFormed_of_item? hdoc hi).2
    have hnodup : (Dict.keys contexts).Nodup := (Json.WellFormed.of_get? hw hfrom.offered).1
    rw [hbelow, hfrom.names]
    exact Dict.mem_keys_filter_iff hnodup hsources fun v => v.items?.isSome
  · exact List.mem_append_left _ (hfrom.reported d sources (Dict.mem_of_get? hsources) hs)

/-- A modifier whose default is a context without sources. -/
def unlistedDefault : Json :=
  .object [("version", .string resolverVersion), ("resolutionOrder", .array [
    .object [("type", .string "modifier"), ("name", .string "theme"),
      ("default", .string "dark"),
      ("contexts", .object [("dark", .number (.integer 7)), ("light", .array [])])]])]

theorem wellFormed_unlistedDefault : unlistedDefault.WellFormed := by
  simp [unlistedDefault, Json.WellFormed, Json.WellFormedMembers, Json.WellFormedItems]

/-- The context is missing below the modifier, and it is reported. -/
theorem context_of_default_iff_unlisted :
    let theme : Node := ⟨⟨"/theme"⟩, none, "a0", .modifier ⟨"theme", none, none, some "dark"⟩⟩
    let o := (parse .path .all unlistedDefault).2
    unlistedDefault.WellFormed ∧ theme ∈ o.nodes ∧
      (¬∃ c ∈ o.nodes, c.parent = some theme.id ∧ c.content = .context "dark") ∧
      ⟨["resolutionOrder", "0", "contexts", "dark"], .contextWithoutSources⟩ ∈ o.issues := by
  intro theme o
  have hmem : theme ∈ o.nodes := by decide +kernel
  obtain ⟨index, item, sources, hi, -, -, hs, hiff, hreport⟩ :=
    context_of_default_iff .path .all wellFormed_unlistedDefault hmem rfl rfl
  match index, hi with
  | 0, hi =>
    have hsources : sources.items? = none := by
      cases hi
      cases hs
      rfl
    refine ⟨wellFormed_unlistedDefault, hmem, fun hc => ?_, hreport hsources⟩
    have hlisted := hiff.1 hc
    rw [hsources] at hlisted
    cases hlisted

/-- So it is not true that a default always names a context among the nodes; and when these nodes
are written and read again, the default is reported. -/
theorem unlistedDefault_dangles :
    let o := (parse .path .all unlistedDefault).2
    unlistedDefault.WellFormed ∧
      (¬∀ n ∈ o.nodes, ∀ m d, n.content = .modifier m → m.defaultContext = some d →
        ∃ c ∈ o.nodes, c.parent = some n.id ∧ c.content = .context d) ∧
      (write false (.ofNodes o.nodes) none).map (fun written => (read .all written).issues) =
        .ok [⟨["resolutionOrder", "0", "default"], .undefinedDefault "dark"⟩] := by
  intro o
  refine ⟨wellFormed_unlistedDefault, fun h => ?_, by decide +kernel⟩
  have hmem : (⟨⟨"/theme"⟩, none, "a0", .modifier ⟨"theme", none, none, some "dark"⟩⟩ : Node) ∈
      o.nodes := by decide +kernel
  have hcontext := h _ hmem _ "dark" rfl rfl
  revert hcontext
  decide +kernel

end Resolver

end DesignTokens
