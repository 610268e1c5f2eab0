/-
Writing the store of a grove. The writer follows the children of each group and
comes back with the tree that the grove holds (`forestBelow_eq_forest`); what it
writes of a tree that a reader has given is `forestMembers`, whatever the ids.
-/
import DesignTokens.Proofs.Dict
import DesignTokens.Proofs.Document.Tree.Nodes
import DesignTokens.Proofs.Value.Paths

namespace DesignTokens

open DesignTokens.Tree

/-- The groups and tokens of a grove as a tree; other nodes are passed over. -/
def Grove.forest : Grove → Forest NodeId
  | nil => []
  | node id order content below next =>
    match content with
    | .token t => (order, .token id t) :: next.forest
    | .group g => (order, .group id g below.forest) :: next.forest
    | _ => next.forest

namespace Store

/-- What a child adds to the forest below its parent. -/
def branch? (s : Store) (visited : List NodeId) (n : Node) : Option (String × Entry NodeId) :=
  match n.content with
  | .token t => some (n.order, .token n.id t)
  | .group g =>
    if n.id ∈ s.ids ∧ n.id ∉ visited then
      some (n.order, .group n.id g (s.forestBelow (n.id :: visited) (some n.id)))
    else none
  | _ => none

theorem forestBelow_eq (s : Store) (visited : List NodeId) (p : Option NodeId) :
    s.forestBelow visited p = (s.children p).filterMap (s.branch? visited) := by
  rw [forestBelow]
  rfl

/-- Below each of its nodes a store has the tree that the grove holds there. -/
theorem filterMap_branch?_heads {s : Store} {g : Grove} {p : Option NodeId}
    {visited : List NodeId} (h : Grove.Within s p g) (hv : ∀ i ∈ g.ids, i ∉ visited) :
    (g.heads p).filterMap (s.branch? visited) = g.forest := by
  induction g generalizing p visited with
  | nil => rfl
  | node id o c below next ihb ihn =>
    have hnext : (next.heads p).filterMap (s.branch? visited) = next.forest :=
      ihn h.of_next fun i hi => hv i (by simp [Grove.ids, hi])
    have hbelow : s.forestBelow (id :: visited) (some id) = below.forest := by
      rw [forestBelow_eq, h.children_eq]
      refine ihb h.of_below fun i hi => ?_
      rw [List.mem_cons, not_or]
      exact ⟨fun he => h.apart.id_notMem (he ▸ hi), hv i (by simp [Grove.ids, hi])⟩
    have hid : id ∈ s.ids ∧ id ∉ visited := ⟨h.stored_id, hv id (by simp [Grove.ids])⟩
    cases c with
    | token t =>
      have he : s.branch? visited ⟨id, p, o, .token t⟩ = some (o, .token id t) := rfl
      rw [Grove.heads, List.filterMap_cons_some he, hnext]
      rfl
    | group g =>
      have he : s.branch? visited ⟨id, p, o, .group g⟩ = some (o, .group id g below.forest) := by
        rw [branch?]
        simp only
        rw [if_pos hid, hbelow]
      rw [Grove.heads, List.filterMap_cons_some he, hnext]
      rfl
    | set | modifier | context | resolver =>
      rw [Grove.heads, List.filterMap_cons_none]
      · exact hnext
      · rfl

theorem forest_eq_forest {s : Store} {g : Grove} {p : Option NodeId} (h : Grove.Within s p g)
    (hc : s.children p = g.heads p) : s.forest p = g.forest := by
  rw [forest, forestBelow_eq, hc]
  exact filterMap_branch?_heads h fun _ _ => List.not_mem_nil

end Store

/-! ## What is written of a tree -/

variable {ι : Type}

theorem disjoint_own_children {minimal : Bool} {inherited : Option TokenType}
    {es : List (String × Entry ι)} (h : ForestWritable inherited es) {k : String}
    (hk : k ∈ Dict.keys (forestMembers minimal inherited es)) (t : Option TokenType)
    (notes : Notes) : k ∉ Dict.keys (typeMember t ++ noteMembers notes) := by
  intro hmem
  have hc := h.isChild_of_mem hk
  rw [Dict.keys, List.map_append, List.mem_append] at hmem
  rcases hmem with hmem | hmem
  · rw [eq_of_mem_keys_typeMember t k hmem] at hc
    exact absurd hc (by decide)
  · rcases of_mem_keys_noteMembers notes k hmem with he | he | he <;> rw [he] at hc <;>
      exact absurd hc (by decide)

theorem nodup_keys_forestMembers (minimal : Bool) {inherited : Option TokenType}
    {es : List (String × Entry ι)} (h : ForestWritable inherited es) :
    (Dict.keys (forestMembers minimal inherited es)).Nodup := by
  rw [keys_forestMembers]
  exact (forestWritable_iff.1 h).2

theorem byName_forestMembers {minimal : Bool} {inherited : Option TokenType}
    {es : List (String × Entry ι)} (h : ForestWritable inherited es) :
    byName (forestMembers minimal inherited es) = forestMembers minimal inherited es :=
  Dict.addMissing_eq_append (nodup_keys_forestMembers minimal h) (by simp)

/-- The members of a group: its own, then those of its children. -/
theorem object_insertAll_children {minimal : Bool} {inherited : Option TokenType} {tag : ι}
    {g : Group} {children : List (String × Entry ι)}
    (h : ForestWritable (g.declaredType.or inherited) children) :
    Json.object (Dict.insertAll
        (typeMember (writtenType minimal g.declaredType inherited) ++ noteMembers g.notes)
        (byName (forestMembers minimal (g.declaredType.or inherited) children))) =
      (Entry.group tag g children).toJson minimal inherited := by
  rw [byName_forestMembers h, Dict.insertAll_eq_append (nodup_keys_forestMembers minimal h)
    fun k hk => disjoint_own_children h hk _ _]
  rfl

/-! ## Trees that a reader has given -/

mutual

theorem Entry.write_forest_grove {ε : Type} {minimal : Bool}
    {writeAlias : NodeId → Alias → Except ε String}
    (hw : ∀ id ref, Alias.Spelled ref → writeAlias id ref = .ok ref.display) {names : List String}
    {order : String} {next : Grove} {inherited : Option TokenType} {rest : List (String × Json)}
    (hnext : writeEntries minimal writeAlias inherited next.forest = .ok rest) :
    (e : Entry ι) → e.Readable inherited →
    writeEntries minimal writeAlias inherited (e.grove names order next).forest =
      .ok ((e.name, e.toJson minimal inherited) :: rest)
  | .token _ t, h => by
    obtain ⟨-, raw, hraw⟩ := h
    have hv : t.value.write (writeAlias ⟨Pointer.format (names ++ [t.name])⟩) = .ok t.value.toJson :=
      TokenValue.write_eq_ok fun ref href => hw _ ref (TokenValue.spelled_of_ofJson hraw href)
    simp only [Entry.grove, Grove.forest, writeEntries, writeEntry, hv, hnext]
    rfl
  | .group _ g children, h => by
    have hc := write_forest_forestGrove minimal hw (names ++ [g.name]) children h.2
    simp only [Entry.grove, Grove.forest, writeEntries, writeEntry, hc, hnext]
    exact congrArg (fun raw => Except.ok ((g.name, raw) :: rest))
      (object_insertAll_children h.2.writable)

/-- What is written of the groups and tokens in the grove of a tree. -/
theorem write_forest_forestGrove {ε : Type} (minimal : Bool)
    {writeAlias : NodeId → Alias → Except ε String}
    (hw : ∀ id ref, Alias.Spelled ref → writeAlias id ref = .ok ref.display)
    (names : List String) {inherited : Option TokenType} :
    (es : List (String × Entry ι)) → ForestReadable inherited es →
    writeEntries minimal writeAlias inherited (forestGrove names es).forest =
      .ok (forestMembers minimal inherited es)
  | [], _ => rfl
  | (_, e) :: es, h =>
    Entry.write_forest_grove hw (write_forest_forestGrove minimal hw names es h.2.2) e h.1

end

theorem Store.aliasText_eq_ok {s : Store} {id : NodeId} {ref : Alias} (h : ref.Spelled) :
    s.aliasText id ref = .ok ref.display := by
  obtain ⟨⟨dotted, he⟩, -⟩ := h
  rw [he]
  rfl

/--
The tree below a parent is written as it was read, if the store holds its grove
there.
-/
theorem writeBelow_of_within {minimal : Bool} {s : Store} {p : Option NodeId} {names : List String}
    {es : List (String × Entry ι)} (hg : Grove.Within s p (forestGrove names es))
    (hc : s.children p = (forestGrove names es).heads p) (h : ForestReadable none es) :
    writeBelow minimal s p = .ok (.object (forestMembers minimal none es)) := by
  have hw : writeEntries minimal s.aliasText none (forestGrove names es).forest = _ :=
    write_forest_forestGrove minimal (fun _ _ => Store.aliasText_eq_ok) names es h
  rw [writeBelow, Store.forest_eq_forest hg hc, hw]
  show Except.ok (Json.object (byName _)) = _
  rw [byName_forestMembers h.writable]

/-! ## Other aliases -/

mutual

/-- An entry with its aliases changed. -/
def Entry.respell (g : Alias → Alias) : Entry ι → Entry ι
  | .token tag t => .token tag { t with value := t.value.respell g }
  | .group tag gr children => .group tag gr (forestRespelled g children)

/-- Siblings with their aliases changed. -/
def forestRespelled (g : Alias → Alias) : List (String × Entry ι) → Forest ι
  | [] => []
  | (order, e) :: es => (order, e.respell g) :: forestRespelled g es

end

mutual

/-- The tokens of an entry in reading order. -/
def Entry.tokens : Entry ι → List (ι × Token)
  | .token tag t => [(tag, t)]
  | .group _ _ children => forestTokens children

/-- The tokens of siblings. -/
def forestTokens : List (String × Entry ι) → List (ι × Token)
  | [] => []
  | (_, e) :: es => e.tokens ++ forestTokens es

end

@[simp] theorem Entry.name_respell (g : Alias → Alias) (e : Entry ι) :
    (e.respell g).name = e.name := by
  cases e <;> rfl

theorem forestRespelled_eq_map (g : Alias → Alias) (es : List (String × Entry ι)) :
    forestRespelled g es = es.map fun e => (e.1, e.2.respell g) := by
  induction es with
  | nil => rfl
  | cons e es ih => rw [forestRespelled, ih, List.map_cons]

theorem mem_forestTokens {es : List (String × Entry ι)} {x : ι × Token} :
    x ∈ forestTokens es ↔ ∃ e ∈ es, x ∈ e.2.tokens := by
  induction es with
  | nil => simp [forestTokens]
  | cons e es ih => simp only [forestTokens, List.mem_append, ih, List.exists_mem_cons_iff]

theorem tokenType_respell (minimal : Bool) (g : Alias → Alias) (t : Token)
    (inherited : Option TokenType) :
    tokenType minimal { t with value := t.value.respell g } inherited =
      tokenType minimal t inherited := by
  obtain ⟨_, _, declared, value⟩ := t
  cases declared <;> cases inherited <;> cases value <;>
    simp [tokenType, TokenValue.respell]

section

variable {ε : Type} {writeAlias : NodeId → Alias → Except ε String} {g : Alias → Alias}

mutual

theorem Entry.write_eq_ok (minimal : Bool) {inherited : Option TokenType} : (e : Entry NodeId) →
    (e.respell g).Writable inherited →
    (∀ x ∈ e.tokens, ∀ ref ∈ x.2.value.aliases, writeAlias x.1 ref = .ok (g ref).display) →
    writeEntry minimal writeAlias inherited e = .ok ((e.respell g).toJson minimal inherited)
  | .token id t, _, ha => by
    have hv : t.value.write (writeAlias id) = .ok (t.value.respell g).toJson :=
      TokenValue.write_eq_ok_respell fun ref href => ha (id, t) (List.mem_singleton.2 rfl) ref href
    rw [writeEntry, hv, Entry.respell, Entry.toJson, tokenType_respell]
    rfl
  | .group _ gr children, h, ha => by
    have hchildren := writeEntries_eq_ok minimal children h.2 ha
    rw [writeEntry, hchildren]
    exact congrArg Except.ok (object_insertAll_children h.2)

/-- Siblings whose aliases are written as others are written with these. -/
theorem writeEntries_eq_ok (minimal : Bool) {inherited : Option TokenType} :
    (es : List (String × Entry NodeId)) → ForestWritable inherited (forestRespelled g es) →
    (∀ x ∈ forestTokens es, ∀ ref ∈ x.2.value.aliases, writeAlias x.1 ref = .ok (g ref).display) →
    writeEntries minimal writeAlias inherited es =
      .ok (forestMembers minimal inherited (forestRespelled g es))
  | [], _, _ => rfl
  | (_, e) :: es, h, ha => by
    have he := Entry.write_eq_ok minimal e h.1 fun x hx => ha x (List.mem_append_left _ hx)
    have hes := writeEntries_eq_ok minimal es h.2.2 fun x hx => ha x (List.mem_append_right _ hx)
    rw [writeEntries, he, hes, forestRespelled, forestMembers, Entry.name_respell]
    rfl

end

end

/-- The tree below a parent is written with the aliases that are written for its own. -/
theorem writeBelow_eq_ok {minimal : Bool} {s : Store} {p : Option NodeId} {g : Alias → Alias}
    (h : ForestWritable none (forestRespelled g (s.forest p)))
    (ha : ∀ x ∈ forestTokens (s.forest p), ∀ ref ∈ x.2.value.aliases,
      s.aliasText x.1 ref = .ok (g ref).display) :
    writeBelow minimal s p =
      .ok (.object (forestMembers minimal none (forestRespelled g (s.forest p)))) := by
  rw [writeBelow, writeEntries_eq_ok minimal (s.forest p) h ha]
  show Except.ok (Json.object (byName _)) = _
  rw [byName_forestMembers h]

end DesignTokens
