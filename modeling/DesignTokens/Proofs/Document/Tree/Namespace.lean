/-
Trees as namespaces. The tree that a writer follows down a store mirrors the
store (`Store.mirrors_forest`); what is written of a tree and read again mirrors
the tree, with its aliases changed and some types left out
(`mirrors_forestExported`); and the tags and ids of a tree do not matter to what
its names lead to (`mirrors_untagged`).
-/
import DesignTokens.Proofs.Document.Mirror
import DesignTokens.Proofs.Document.Numbered
import DesignTokens.Proofs.Document.Tree.Rebuilt
import DesignTokens.Proofs.Document.Tree.Written

namespace DesignTokens

variable {ι : Type}

/-- What stands below an entry. -/
def Entry.children : Entry ι → Forest ι
  | token _ _ => []
  | group _ _ children => children

/-- Trees by the entries among siblings, whatever their keys. -/
def forestNamespace (ι : Type) : Namespace (Forest ι) (Entry ι) :=
  ⟨fun es e => ∃ order, (order, e) ∈ es, Entry.content, Entry.children⟩

/-! ## The tree of a store -/

namespace Store

/-- The entry of a node in the tree of its store, below these groups. -/
def Grows (s : Store) (above : List Node) (n : Node) (e : Entry NodeId) : Prop :=
  (∃ t, n.content = .token t ∧ e = .token n.id t) ∨
    ∃ g, n.content = .group g ∧
      e = .group n.id g (s.forestBelow ((n :: above).map Node.id) (some n.id))

section

variable {s : Store} {above : List Node} {n : Node} {e : Entry NodeId}

theorem Grows.content_eq (h : s.Grows above n e) : e.content = n.content := by
  obtain ⟨t, hn, rfl⟩ | ⟨g, hn, rfl⟩ := h <;> exact hn.symm

theorem Grows.name_eq (h : s.Grows above n e) : e.name = n.name := by
  obtain ⟨t, hn, rfl⟩ | ⟨g, hn, rfl⟩ := h <;> rw [Node.name, hn] <;> rfl

theorem Grows.children_eq (h : s.Grows above n e) {g : Group} (hg : n.content = .group g) :
    e.children = s.forestBelow ((n :: above).map Node.id) (some n.id) := by
  obtain ⟨t, hn, -⟩ | ⟨g, -, rfl⟩ := h
  · cases hg.symm.trans hn
  · rfl

theorem exists_grows (s : Store) (above : List Node) (hn : n.isToken ∨ n.isGroup) :
    ∃ e, s.Grows above n e := by
  rw [Node.isToken_iff, Node.isGroup_iff] at hn
  obtain ⟨t, ht⟩ | ⟨g, hg⟩ := hn
  · exact ⟨_, .inl ⟨t, ht, rfl⟩⟩
  · exact ⟨_, .inr ⟨g, hg, rfl⟩⟩

variable (hc : s.Consistent) {p : Option NodeId} (ha : s.Around p above)

include hc ha

theorem Around.child (hn : n ∈ s.children p) {g : Group} (hg : n.content = .group g) :
    s.Around (some n.id) (n :: above) := by
  obtain ⟨hstored, rfl⟩ := hc.mem_children_iff.1 hn
  exact .up hstored (Node.isGroup_iff.2 ⟨g, hg⟩) ha

/-- A group below these groups is none of them, so that its own tree is entered. -/
theorem Around.fresh (hn : n ∈ s.children p) {g : Group} (hg : n.content = .group g) :
    n.id ∈ s.ids ∧ n.id ∉ above.map Node.id :=
  ha.upTo.fresh hc s.outermost_none hn (Node.isGroup_iff.2 ⟨g, hg⟩)

theorem branch?_eq_some_iff (hn : n ∈ s.children p) {order : String} :
    s.branch? (above.map Node.id) n = some (order, e) ↔ n.order = order ∧ s.Grows above n e := by
  unfold branch? Grows
  cases hcontent : n.content with
  | group g =>
    simp only
    rw [if_pos (ha.fresh hc hn hcontent)]
    simp [eq_comm (a := e)]
  | _ => simp [eq_comm (a := e)]

theorem mem_forestBelow_iff {order : String} :
    (order, e) ∈ s.forestBelow (above.map Node.id) p ↔
      ∃ n ∈ s.children p, n.order = order ∧ s.Grows above n e := by
  rw [forestBelow_eq, List.mem_filterMap]
  exact exists_congr fun n => and_congr_right fun hn => branch?_eq_some_iff hc ha hn

end

/-- The names of a store of groups and tokens lead through its tree in the same way. -/
theorem mirrors_forest {s : Store} (hc : s.Consistent)
    (hkinds : ∀ n ∈ s.nodes, n.isToken ∨ n.isGroup) :
    s.asNamespace.Mirrors none (forestNamespace NodeId) (s.forest none) fun _ c d => d = c := by
  have hbelow : ∀ {p above n e}, s.Around p above → n ∈ s.children p → s.Grows above n e →
      ∀ g, n.content = .group g → ∃ around, s.Around (some n.id) around ∧
        e.children = s.forestBelow (around.map Node.id) (some n.id) :=
    fun ha hn hgrows g hg => ⟨_, ha.child hc hn hg, hgrows.children_eq hg⟩
  refine .of_steps (R := fun _ p es => ∃ above, s.Around p above ∧
    es = s.forestBelow (above.map Node.id) p) ?_ ?_ ?_ ⟨[], .root, rfl⟩
  · rintro i c d rfl
    rfl
  · rintro i p es n ⟨above, ha, rfl⟩ hn
    obtain ⟨e, he⟩ := s.exists_grows above (hkinds n (hc.mem_children_iff_mem_nodes.1 hn).1)
    exact ⟨e, ⟨n.order, (mem_forestBelow_iff hc ha).2 ⟨n, hn, rfl, he⟩⟩, he.content_eq,
      hbelow ha hn he⟩
  · rintro i p es e ⟨above, ha, rfl⟩ ⟨order, he⟩
    obtain ⟨n, hn, -, hgrows⟩ := (mem_forestBelow_iff hc ha).1 he
    exact ⟨n, hn, hgrows.content_eq, hbelow ha hn hgrows⟩

end Store

/-! ## A tree that is written and read -/

theorem Content.entrance?_exported (minimal : Bool) (g : Alias → Alias) (i : Option TokenType)
    (c : Content) : (c.exported minimal g i).entrance? i = c.entrance? i := by
  cases c with
  | group gr =>
    have htype := writtenType_or minimal gr.declaredType i
    simp only [Content.exported, Content.respell, Content.written, Content.entrance?, htype]
  | _ => rfl

theorem mem_forestRebuilt {minimal : Bool} {place : Pointer.Path} {i : Option TokenType}
    {es : Forest ι} {e : Entry Pointer.Path} :
    (∃ order, (order, e) ∈ forestRebuilt minimal place i es) ↔
      ∃ order e', (order, e') ∈ es ∧ e = e'.rebuilt minimal (place ++ [e'.name]) i := by
  have hlength : (OrderKey.initial es.length).length =
      (entriesRebuilt minimal place i es).length := by
    rw [OrderKey.length_initial, entriesRebuilt_eq_map, List.length_map]
  have hsnd : (∃ order, (order, e) ∈ forestRebuilt minimal place i es) ↔
      e ∈ (forestRebuilt minimal place i es).map Prod.snd := by
    simp
  rw [hsnd, forestRebuilt, List.map_snd_zip (Nat.le_of_eq hlength.symm), entriesRebuilt_eq_map,
    List.mem_map]
  simp only [Prod.exists, eq_comm (a := e)]

/-- An entry with its aliases changed, written, and read again at a place. -/
def Entry.exported (minimal : Bool) (g : Alias → Alias) (place : Pointer.Path)
    (i : Option TokenType) (e : Entry ι) : Entry Pointer.Path :=
  (e.respell g).tidied.rebuilt minimal place i

/-- Siblings with their aliases changed, written, and read again. -/
def forestExported (minimal : Bool) (g : Alias → Alias) (place : Pointer.Path)
    (i : Option TokenType) (es : Forest ι) : Forest Pointer.Path :=
  forestRebuilt minimal place i (forestTidied (forestRespelled g es))

theorem mem_forestExported {minimal : Bool} {g : Alias → Alias} {place : Pointer.Path}
    {i : Option TokenType} {es : Forest ι} {e : Entry Pointer.Path} :
    (∃ order, (order, e) ∈ forestExported minimal g place i es) ↔
      ∃ order e', (order, e') ∈ es ∧ e = e'.exported minimal g (place ++ [e'.name]) i := by
  rw [forestExported, mem_forestRebuilt]
  constructor
  · rintro ⟨order, a, ha, rfl⟩
    obtain ⟨order, b, hb, rfl⟩ := mem_forestTidied.1 ⟨order, ha⟩
    rw [forestRespelled_eq_map] at hb
    obtain ⟨e', he', hb⟩ := List.mem_map.1 hb
    cases hb
    refine ⟨e'.1, e'.2, he', ?_⟩
    rw [Entry.exported, Entry.name_tidied, Entry.name_respell]
  · rintro ⟨order, e', he', rfl⟩
    have hrespell : (order, e'.respell g) ∈ forestRespelled g es := by
      rw [forestRespelled_eq_map]
      exact List.mem_map.2 ⟨_, he', rfl⟩
    obtain ⟨order, htidied⟩ := mem_forestTidied.2 ⟨order, _, hrespell, rfl⟩
    refine ⟨order, _, htidied, ?_⟩
    rw [Entry.exported, Entry.name_tidied, Entry.name_respell]

theorem Entry.content_exported (minimal : Bool) (g : Alias → Alias) (place : Pointer.Path)
    (i : Option TokenType) (e : Entry ι) :
    (e.exported minimal g place i).content = e.content.exported minimal g i := by
  cases e <;> rfl

theorem Entry.children_exported (minimal : Bool) (g : Alias → Alias) (place : Pointer.Path)
    (i : Option TokenType) {e : Entry ι} {gr : Group} (he : e.content = .group gr) :
    (e.exported minimal g place i).children =
      forestExported minimal g place (gr.declaredType.or i) e.children := by
  cases e with
  | token tag t => cases he
  | group tag gr' children =>
    cases he
    rfl

/-- Names lead to the same things, exported, once a tree has been written and read. -/
theorem mirrors_forestExported (minimal : Bool) (g : Alias → Alias) (place : Pointer.Path)
    (es : Forest ι) : (forestNamespace ι).Mirrors es (forestNamespace Pointer.Path)
      (forestExported minimal g place none es) fun j c d => d = c.exported minimal g j := by
  have hbelow : ∀ (e : Entry ι) place i gr, e.content = .group gr → ∃ place',
      (e.exported minimal g place i).children =
        forestExported minimal g place' (gr.declaredType.or i) e.children :=
    fun e place i gr he => ⟨place, e.children_exported minimal g place i he⟩
  refine .of_steps (R := fun i es es' => ∃ place, es' = forestExported minimal g place i es)
    ?_ ?_ ?_ ⟨place, rfl⟩
  · rintro i c d rfl
    exact (c.entrance?_exported minimal g i).symm
  · rintro i es es' e ⟨place, rfl⟩ ⟨order, he⟩
    exact ⟨_, mem_forestExported.2 ⟨order, e, he, rfl⟩, e.content_exported minimal g _ i,
      hbelow e _ i⟩
  · rintro i es es' e' ⟨place, rfl⟩ he'
    obtain ⟨order, e, he, rfl⟩ := mem_forestExported.1 he'
    exact ⟨e, ⟨order, he⟩, e.content_exported minimal g _ i, hbelow e _ i⟩

/-! ## Tags -/

mutual

/-- An entry without its tags. -/
def Entry.untagged : Entry ι → Entry Unit
  | .token _ t => .token () t
  | .group _ g children => .group () g (forestUntagged children)

/-- Siblings without tags. -/
def forestUntagged : List (String × Entry ι) → Forest Unit
  | [] => []
  | (order, e) :: es => (order, e.untagged) :: forestUntagged es

end

theorem mem_forestUntagged {es : Forest ι} {order : String} {u : Entry Unit} :
    (order, u) ∈ forestUntagged es ↔ ∃ e, (order, e) ∈ es ∧ u = e.untagged := by
  induction es with
  | nil => simp [forestUntagged]
  | cons e es ih =>
    obtain ⟨order', e⟩ := e
    simp only [forestUntagged, List.mem_cons, ih, Prod.mk.injEq]
    constructor
    · rintro (⟨rfl, rfl⟩ | ⟨e', he', rfl⟩)
      · exact ⟨e, .inl ⟨rfl, rfl⟩, rfl⟩
      · exact ⟨e', .inr he', rfl⟩
    · rintro ⟨e', ⟨rfl, rfl⟩ | he', rfl⟩
      · exact .inl ⟨rfl, rfl⟩
      · exact .inr ⟨e', he', rfl⟩

theorem mirrors_untagged (es : Forest ι) : (forestNamespace ι).Mirrors es
    (forestNamespace Unit) (forestUntagged es) fun _ c d => d = c := by
  have hcontent : ∀ e : Entry ι, e.untagged.content = e.content := fun e => by cases e <;> rfl
  have hchildren : ∀ e : Entry ι, e.untagged.children = forestUntagged e.children :=
    fun e => by cases e <;> rfl
  refine .of_steps (R := fun _ es us => us = forestUntagged es) ?_ ?_ ?_ rfl
  · rintro i c d rfl
    rfl
  · rintro i es us e rfl ⟨order, he⟩
    exact ⟨e.untagged, ⟨order, mem_forestUntagged.2 ⟨e, he, rfl⟩⟩, hcontent e,
      fun _ _ => hchildren e⟩
  · rintro i es us u rfl ⟨order, hu⟩
    obtain ⟨e, he, rfl⟩ := mem_forestUntagged.1 hu
    exact ⟨e, ⟨order, he⟩, hcontent e, fun _ _ => hchildren e⟩

mutual

theorem Entry.untagged_forest_grove (names : List String) (order : String) (next : Grove) :
    (e : Entry ι) → forestUntagged (e.grove names order next).forest =
      (order, e.untagged) :: forestUntagged next.forest
  | .token _ _ => rfl
  | .group _ g children => by
    have hchildren := untagged_forest_forestGrove (names ++ [g.name]) children
    rw [Entry.grove, Grove.forest, forestUntagged, Entry.untagged, hchildren, Entry.untagged]

/-- The grove of a tree holds the tree. -/
theorem untagged_forest_forestGrove (names : List String) : (es : List (String × Entry ι)) →
    forestUntagged (forestGrove names es).forest = forestUntagged es
  | [] => rfl
  | (order, e) :: es => by
    rw [forestGrove, Entry.untagged_forest_grove, untagged_forest_forestGrove names es]
    rfl

end

theorem untagged_forest_numbered (start : String) (before : Nat) (g : Grove) :
    forestUntagged (g.numbered start before).forest = forestUntagged g.forest := by
  induction g generalizing before with
  | nil => rfl
  | node id o c below next ihb ihn =>
    cases c <;> simp [Grove.numbered, Grove.forest, forestUntagged, Entry.untagged, ihb, ihn]

theorem untagged_forest_scheduled (scheme : IdScheme) (g : Grove) :
    forestUntagged (g.scheduled scheme).forest = forestUntagged g.forest := by
  cases scheme with
  | path => rfl
  | sequential start => exact untagged_forest_numbered start 0 g

end DesignTokens
