/-
Reading what was written of a tree. A tree that a reader has given comes back
with its types as they were written, its keys given anew and its tags the
places in the new document (`Entry.rebuilt`); nothing is reported and nothing
is left out. Any other tree that can be written is tidied on the way
(`read_forestMembers_tidied`).
-/
import DesignTokens.Document.Tree.Basic
import DesignTokens.Proofs.Dict
import DesignTokens.Proofs.Document.Expansion
import DesignTokens.Proofs.Document.Tree.Tidied

namespace DesignTokens

open DesignTokens.Tree

variable {ι : Type}

mutual

/-- An entry as it comes back from a place in a written document. -/
def Entry.rebuilt (minimal : Bool) (place : Pointer.Path) (inherited : Option TokenType) :
    Entry ι → Entry Pointer.Path
  | .token _ t => .token place { t with declaredType := writtenType minimal t.declaredType inherited }
  | .group _ g children =>
    .group place { g with declaredType := writtenType minimal g.declaredType inherited }
      ((OrderKey.initial children.length).zip
        (entriesRebuilt minimal place (g.declaredType.or inherited) children))

/-- Siblings as they come back. -/
def entriesRebuilt (minimal : Bool) (place : Pointer.Path) (inherited : Option TokenType) :
    List (String × Entry ι) → List (Entry Pointer.Path)
  | [] => []
  | (_, e) :: es =>
    e.rebuilt minimal (place ++ [e.name]) inherited :: entriesRebuilt minimal place inherited es

end

/-- Siblings as they come back, with the keys that they are given. -/
def forestRebuilt (minimal : Bool) (place : Pointer.Path) (inherited : Option TokenType)
    (es : List (String × Entry ι)) : Forest Pointer.Path :=
  (OrderKey.initial es.length).zip (entriesRebuilt minimal place inherited es)

/-! ## Headers -/

theorem ofName?_name (t : TokenType) : TokenType.ofName? t.name = some t := by
  cases t <;> decide

namespace Tree

theorem Header.read_append (place : Pointer.Path) (h : Header) (ms ms' : Members) :
    Header.read place h (ms ++ ms') = (do
      match ← Header.read place h ms with
      | none => return none
      | some h => Header.read place h ms') := by
  induction ms generalizing h with
  | nil => rfl
  | cons m ms ih =>
    obtain ⟨k, raw⟩ := m
    rw [List.cons_append, Header.read, Header.read]
    split
    · rw [bind_assoc]
      congr 1
      funext h?
      cases h? with
      | none => rfl
      | some h => exact ih h
    · exact ih h

theorem Header.read_typeMember (place : Pointer.Path) (t : Option TokenType) :
    Header.read place .empty (typeMember t) = pure (some ⟨t, .none⟩) := by
  cases t with
  | none => rfl
  | some t =>
    show Header.read place .empty [(Key.type, .string t.name)] = _
    rw [Header.read, if_pos (by decide), Header.add, if_pos rfl]
    simp only [ofName?_name]
    rfl

theorem Header.read_noteMembers (place : Pointer.Path) (d : Option TokenType) (notes : Notes) :
    Header.read place ⟨d, .none⟩ (noteMembers notes) = pure (some ⟨d, notes⟩) := by
  obtain ⟨description, deprecated, extensions⟩ := notes
  have hd : ∀ h : Header, Header.read place h
      (Json.optionalMember Key.description .string description) = pure (some { h with
        notes := { h.notes with description := description.or h.notes.description } }) := by
    intro h
    cases description <;> rfl
  have hm : ∀ h : Header, Header.read place h
      (Json.optionalMember Key.deprecated Deprecated.toJson deprecated) = pure (some { h with
        notes := { h.notes with deprecated := deprecated.or h.notes.deprecated } }) := by
    intro h
    rcases deprecated with _ | (_ | _) <;> rfl
  have he : ∀ h : Header, Header.read place h
      (Json.optionalMember Key.extensions .object extensions) = pure (some { h with
        notes := { h.notes with extensions := extensions.or h.notes.extensions } }) := by
    intro h
    cases extensions <;> rfl
  simp only [noteMembers, Header.read_append, hd, hm, he, pure_bind, Notes.none, Option.or_none]

theorem Header.read_children (place : Pointer.Path) (h : Header) (ms : Members)
    (hms : ∀ k ∈ Dict.keys ms, Name.isChild k) : Header.read place h ms = pure (some h) := by
  induction ms with
  | nil => rfl
  | cons m ms ih =>
    obtain ⟨k, raw⟩ := m
    have hk : Name.isChild k := hms k (by simp)
    have hrest := ih fun k hk => hms k (by simp [hk])
    rw [Header.read]
    split
    · next hr =>
      have he : k = rootTokenName := by simpa [Name.isChild, hr] using hk
      subst he
      rw [show h.add place rootTokenName raw = pure (some h) from rfl, pure_bind]
      exact hrest
    · exact hrest

/-- The header of a group that is written with its children behind its own members. -/
theorem Header.read_group (place : Pointer.Path) (t : Option TokenType) (notes : Notes)
    (ms : Members) (hms : ∀ k ∈ Dict.keys ms, Name.isChild k) :
    Header.read place .empty (typeMember t ++ noteMembers notes ++ ms) =
      pure (some ⟨t, notes⟩) := by
  simp only [Header.read_append, Header.read_typeMember, Header.read_noteMembers, pure_bind,
    Header.read_children _ _ ms hms]

/-- The header of a token; its value says nothing here. -/
theorem Header.read_token (place : Pointer.Path) (t : Option TokenType) (notes : Notes)
    (raw : Json) :
    Header.read place .empty (typeMember t ++ (Key.value, raw) :: noteMembers notes) =
      pure (some ⟨t, notes⟩) := by
  have hv : ∀ h, Header.read place h ((Key.value, raw) :: noteMembers notes) =
      Header.read place h (noteMembers notes) := by
    intro h
    rw [Header.read, if_pos (by decide)]
    rfl
  simp only [Header.read_append, Header.read_typeMember, pure_bind, hv, Header.read_noteMembers]

/-! ## Children -/

theorem readChildren_append (place : Pointer.Path) (inherited : Option TokenType)
    (ms ms' : Members) : readChildren place inherited (ms ++ ms') =
      readChildren place inherited ms ++ readChildren place inherited ms' := by
  induction ms with
  | nil => rfl
  | cons m ms ih =>
    obtain ⟨k, raw⟩ := m
    rw [List.cons_append, readChildren, readChildren, ih]
    split <;> rfl

theorem readChildren_eq_nil {place : Pointer.Path} {inherited : Option TokenType} {ms : Members}
    (h : ∀ k ∈ Dict.keys ms, Name.isChild k = false) : readChildren place inherited ms = [] := by
  induction ms with
  | nil => rfl
  | cons m ms ih =>
    obtain ⟨k, raw⟩ := m
    rw [readChildren, if_neg (by rw [h k (by simp)]; decide)]
    exact ih fun k hk => h k (by simp [hk])

theorem not_isChild_own (t : Option TokenType) (notes : Notes) :
    ∀ k ∈ Dict.keys (typeMember t ++ noteMembers notes), Name.isChild k = false := by
  intro k hk
  rw [Dict.keys, List.map_append, List.mem_append] at hk
  rcases hk with hk | hk
  · rw [eq_of_mem_keys_typeMember t k hk]
    decide
  · rcases of_mem_keys_noteMembers notes k hk with he | he | he <;> rw [he] <;> decide

theorem collect_zip {ι : Type} (orders : List String) (es : List (Entry ι)) :
    collect (orders.zip (es.map fun e => pure (some e))) = pure (orders.zip es) := by
  induction orders generalizing es with
  | nil => rfl
  | cons order orders ih =>
    cases es with
    | nil => rfl
    | cons e es =>
      rw [List.map_cons, List.zip_cons_cons, collect, pure_bind, ih, pure_bind, List.zip_cons_cons]

/-- Children that were all read are siblings in order. -/
theorem arrange_map {α ι : Type} (name : α → String) (read : α → Entry ι) (l : List α) :
    arrange none (l.map fun a => (name a, pure (some (read a)))) =
      pure ((OrderKey.initial l.length).zip ((rootFirst name l).map read)) := by
  have hfirst : rootFirst Prod.fst (l.map fun a =>
        (name a, (pure (some (read a)) : Reading (Option (Entry ι))))) =
      (rootFirst name l).map fun a => (name a, pure (some (read a))) :=
    (map_rootFirst _ _ fun _ => rfl).symm
  rw [arrange_eq, Option.toList_none, List.map_nil, List.nil_append, hfirst, ← collect_zip,
    List.map_map, List.map_map, List.length_map, List.length_nil, Nat.zero_add]
  rfl

end Tree

/-! ## Entries -/

theorem get?_value_token (t : Option TokenType) (raw : Json) (ms : Members) :
    Dict.get? (typeMember t ++ (Key.value, raw) :: ms) Key.value = some raw := by
  cases t <;> rfl

theorem not_hasChildren_token (t : Option TokenType) (raw : Json) (notes : Notes) :
    hasChildren (typeMember t ++ (Key.value, raw) :: noteMembers notes) = false := by
  have hn : ∀ m ∈ noteMembers notes, Name.isChild m.1 = false := fun m hm =>
    not_isChild_own none notes m.1 (List.mem_map_of_mem hm)
  have ht : ∀ m ∈ typeMember t, Name.isChild m.1 = false := fun m hm => by
    rw [eq_of_mem_keys_typeMember t m.1 (List.mem_map_of_mem hm)]
    decide
  rw [hasChildren, List.any_eq_false]
  intro m hm
  rw [Bool.not_eq_true]
  rcases List.mem_append.1 hm with hm | hm
  · exact ht m hm
  · rcases List.mem_cons.1 hm with he | hm
    · rw [he]
      show Name.isChild Key.value = false
      decide
    · exact hn m hm

theorem get?_value_group {minimal : Bool} {inherited : Option TokenType}
    {es : List (String × Entry ι)} (h : ForestWritable inherited es) (t : Option TokenType)
    (notes : Notes) :
    Dict.get? (typeMember t ++ noteMembers notes ++ forestMembers minimal inherited es)
      Key.value = none := by
  rw [Dict.get?_eq_none_iff, Dict.keys, List.map_append, List.mem_append]
  rintro (hk | hk)
  · rw [List.map_append, List.mem_append] at hk
    rcases hk with hk | hk
    · exact absurd (eq_of_mem_keys_typeMember t _ hk) (by decide)
    · exact absurd (of_mem_keys_noteMembers notes _ hk) (by decide)
  · exact absurd (h.isChild_of_mem hk) (by decide)

theorem entriesRebuilt_eq_map (minimal : Bool) (place : Pointer.Path)
    (inherited : Option TokenType) (es : List (String × Entry ι)) :
    entriesRebuilt minimal place inherited es =
      es.map fun e => e.2.rebuilt minimal (place ++ [e.2.name]) inherited := by
  induction es with
  | nil => rfl
  | cons e es ih => rw [entriesRebuilt, ih, List.map_cons]

theorem readToken_toJson {minimal : Bool} {place : Pointer.Path}
    {declared inherited : Option TokenType} {v : TokenValue} (h : v.Readable (declared.or inherited))
    (name : String) (notes : Notes) :
    readToken place inherited name ⟨writtenType minimal declared inherited, notes⟩ v.toJson =
      pure (some (.token place ⟨name, notes, writtenType minimal declared inherited, v⟩)) := by
  obtain ⟨raw, hraw⟩ := h
  rw [readToken, writtenType_or, TokenValue.ofJson_toJson hraw]

theorem forestRebuilt_forestTidied (minimal : Bool) (place : Pointer.Path)
    (inherited : Option TokenType) (es : Forest ι) :
    forestRebuilt minimal place inherited (forestTidied es) = (OrderKey.initial es.length).zip
      ((rootFirst Entry.name (entriesTidied es)).map fun e =>
        e.rebuilt minimal (place ++ [e.name]) inherited) := by
  rw [forestRebuilt, length_forestTidied, entriesRebuilt_eq_map, ← map_snd_forestTidied,
    List.map_map]
  rfl

theorem arrange_rebuilt (minimal : Bool) (place : Pointer.Path) (inherited : Option TokenType)
    (es : Forest ι) :
    arrange none (es.map fun e =>
      (e.2.name, pure (some (e.2.tidied.rebuilt minimal (place ++ [e.2.name]) inherited)))) =
      pure (forestRebuilt minimal place inherited (forestTidied es)) := by
  rw [arrange_map (fun e => e.2.name) (fun e : String × Entry ι =>
      e.2.tidied.rebuilt minimal (place ++ [e.2.name]) inherited), forestRebuilt_forestTidied,
    entriesTidied_eq_map, ← map_rootFirst _ _ fun e : String × Entry ι => e.2.name_tidied,
    List.map_map]
  simp only [Function.comp_def, Entry.name_tidied]

mutual

theorem Entry.readEntry_toJson (minimal : Bool) (place : Pointer.Path)
    {inherited : Option TokenType} : (e : Entry ι) → e.Writable inherited →
    readEntry place inherited e.name (e.toJson minimal inherited) =
      pure (some (e.tidied.rebuilt minimal place inherited))
  | .token _ t, h => by
    show readEntry place inherited t.name _ = _
    rw [Entry.toJson, tokenType_eq_writtenType h.2, readEntry]
    by_cases hr : t.name = rootTokenName
    · simp only [if_pos hr, Header.read_token, pure_bind, get?_value_token,
        not_hasChildren_token, readToken_toJson h.2, Bool.false_eq_true, if_false]
      rfl
    · have hname : Name.check t.name = .ok () := h.1.resolve_left hr
      simp only [if_neg hr, hname, Header.read_token, pure_bind, get?_value_token,
        not_hasChildren_token, readToken_toJson h.2]
      rfl
  | .group _ g children, h => by
    have hne : g.name ≠ rootTokenName := h.1.ne_root
    have hname : Name.check g.name = .ok () := h.1
    show readEntry place inherited g.name _ = _
    rw [Entry.toJson, readEntry]
    simp only [if_neg hne, hname,
      Header.read_group _ _ _ _ (fun k hk => h.2.isChild_of_mem hk), pure_bind,
      get?_value_group h.2, writtenType_or, Option.isSome_none, Bool.and_false,
      Option.map_none, readChildren_append, readChildren_eq_nil (not_isChild_own _ _),
      List.nil_append, readChildren_forestMembers minimal place children h.2,
      Bool.false_eq_true, if_false, arrange_rebuilt]
    rfl

/-- The children of a group come back, each with the place that its name leads to. -/
theorem readChildren_forestMembers (minimal : Bool) (place : Pointer.Path)
    {inherited : Option TokenType} : (es : List (String × Entry ι)) → ForestWritable inherited es →
    readChildren place inherited (forestMembers minimal inherited es) = es.map fun e =>
      (e.2.name, pure (some (e.2.tidied.rebuilt minimal (place ++ [e.2.name]) inherited)))
  | [], _ => rfl
  | (_, e) :: es, h => by
    rw [forestMembers, readChildren, if_pos h.1.isChild, Entry.readEntry_toJson minimal _ e h.1,
      readChildren_forestMembers minimal place es h.2.2, List.map_cons]

end

/-! ## Documents -/

theorem checkRootKeys_of_not_reserved {place : Pointer.Path} {ms : Members}
    (h : ∀ k ∈ Dict.keys ms, Name.isReserved k = false) : checkRootKeys place ms = pure () := by
  induction ms with
  | nil => rfl
  | cons m ms ih =>
    obtain ⟨k, raw⟩ := m
    rw [checkRootKeys, h k (by simp)]
    exact ih fun k hk => h k (by simp [hk])

theorem not_reserved_forestMembers {minimal : Bool} {inherited : Option TokenType}
    {es : List (String × Entry ι)} (h : RootWritable es) :
    ∀ k ∈ Dict.keys (forestMembers minimal inherited es), Name.isReserved k = false := by
  intro k hk
  rw [keys_forestMembers] at hk
  obtain ⟨e, he, hn⟩ := List.mem_map.1 hk
  rw [← hn]
  exact (((forestWritable_iff.1 h.forest).1 e he).name_cases.resolve_left (h.rootless e he)).not_reserved

/-- The root of a document comes back, and everything in it tidied. -/
theorem readRoot_forestMembers_tidied (minimal : Bool) (place : Pointer.Path)
    {es : List (String × Entry ι)} (h : RootWritable es) :
    readRoot place (forestMembers minimal none es) =
      pure (forestRebuilt minimal place none (forestTidied es)) := by
  rw [readRoot, checkRootKeys_of_not_reserved (not_reserved_forestMembers h), pure_bind,
    readChildren_forestMembers minimal place es h.forest, List.filter_eq_self.2, arrange_rebuilt]
  intro c hc
  obtain ⟨e, he, hce⟩ := List.mem_map.1 hc
  rw [← hce]
  simpa using h.rootless e he

/-! ## References -/

open Expansion

theorem mem_forestMembers_of_isChild {minimal : Bool} {inherited : Option TokenType}
    {t : Option TokenType} {notes : Notes} {es : List (String × Entry ι)} {k : String} {v : Json}
    (h : (k, v) ∈ typeMember t ++ noteMembers notes ++ forestMembers minimal inherited es)
    (hk : Name.isChild k) : (k, v) ∈ forestMembers minimal inherited es := by
  refine (List.mem_append.1 h).resolve_left fun hm => ?_
  rw [not_isChild_own t notes k (List.mem_map_of_mem hm)] at hk
  exact absurd hk (by decide)

/-- An entry without a value of its own stays if each child stays. -/
theorem expandEntry_eq_self {doc : Json} {place : Pointer.Path} {ms : Members}
    (hv : Dict.get? ms Key.value = none)
    (hc : ∀ k v, (k, v) ∈ ms → Name.isChild k → expandEntry doc (place ++ [k]) v = pure (some v)) :
    expandEntry doc place (.object ms) = pure (some (.object ms)) := by
  have hown : ∀ v, (Key.value, v) ∈ ms → none = some v := fun v hm =>
    absurd (Dict.mem_keys_of_mem hm) (Dict.get?_eq_none_iff.1 hv)
  rw [expandEntry]
  simp only [hv, expandChildren_eq_self hown hc]
  rfl

theorem expandEntry_token (doc : Json) (place : Pointer.Path) (t : Option TokenType)
    (notes : Notes) (v : TokenValue) :
    expandEntry doc place (.object (typeMember t ++ (Key.value, v.toJson) :: noteMembers notes)) =
      pure (some (.object (typeMember t ++ (Key.value, v.toJson) :: noteMembers notes))) := by
  have hown : ∀ raw, (Key.value, raw) ∈ typeMember t ++ (Key.value, v.toJson) :: noteMembers notes →
      some v.toJson = some raw := by
    intro raw hm
    rcases List.mem_append.1 hm with hm | hm
    · exact absurd (eq_of_mem_keys_typeMember t Key.value (List.mem_map_of_mem hm)) (by decide)
    · rcases List.mem_cons.1 hm with he | hm
      · rw [(Prod.mk.inj he).2]
      · exact absurd (of_mem_keys_noteMembers notes Key.value (List.mem_map_of_mem hm)) (by decide)
  have hc : ∀ k raw, (k, raw) ∈ typeMember t ++ (Key.value, v.toJson) :: noteMembers notes →
      Name.isChild k → expandEntry doc (place ++ [k]) raw = pure (some raw) := by
    intro k raw hm hk
    have hany := List.any_eq_false.1 (not_hasChildren_token t v.toJson notes) _ hm
    exact absurd hk hany
  rw [expandEntry]
  simp only [get?_value_token, expand_eq_self v.targets_toJson, expandChildren_eq_self hown hc]
  rfl

mutual

theorem Entry.expandEntry_toJson (doc : Json) (place : Pointer.Path) (minimal : Bool)
    {inherited : Option TokenType} : (e : Entry ι) → e.Writable inherited →
    expandEntry doc place (e.toJson minimal inherited) = pure (some (e.toJson minimal inherited))
  | .token _ t, _ => expandEntry_token doc place (tokenType minimal t inherited) t.notes t.value
  | .group _ g children, h => by
    rw [Entry.toJson]
    refine expandEntry_eq_self (get?_value_group h.2 _ _) fun k v hm hk => ?_
    exact expandEntry_of_mem doc place minimal children h.2 (mem_forestMembers_of_isChild hm hk)

/-- What is written holds no references, so that there is nothing to replace. -/
theorem expandEntry_of_mem (doc : Json) (place : Pointer.Path) (minimal : Bool)
    {inherited : Option TokenType} {k : String} {v : Json} :
    (es : List (String × Entry ι)) → ForestWritable inherited es →
    (k, v) ∈ forestMembers minimal inherited es →
    expandEntry doc (place ++ [k]) v = pure (some v)
  | [], _, hm => nomatch hm
  | (_, e) :: es, h, hm => by
    rcases List.mem_cons.1 hm with he | hm
    · cases he
      exact Entry.expandEntry_toJson doc _ minimal e h.1
    · exact expandEntry_of_mem doc place minimal es h.2.2 hm

end

theorem expandValues_forestMembers (base : Pointer.Path) (minimal : Bool)
    {es : List (String × Entry ι)} (h : RootWritable es) :
    expandValues (.object (forestMembers minimal none es)) base =
      pure (.object (forestMembers minimal none es)) := by
  have hv : Dict.get? (forestMembers minimal none es) Key.value = none :=
    Dict.get?_eq_none_iff.2 fun hk => absurd (h.forest.isChild_of_mem hk) (by decide)
  rw [expandValues, expandEntry_eq_self hv fun k v hm _ =>
    expandEntry_of_mem _ base minimal es h.forest hm, pure_bind]
  rfl

/-- A written document comes back as a whole, with no issue, and tidied. -/
theorem read_forestMembers_tidied (options : ReadOptions) (minimal : Bool)
    {es : List (String × Entry ι)} (h : RootWritable es) :
    Tree.read options (.object (forestMembers minimal none es)) =
      pure (forestRebuilt minimal [] none (forestTidied es)) := by
  rw [Tree.read]
  split
  · rw [expandValues_forestMembers [] minimal h, pure_bind]
    exact readRoot_forestMembers_tidied minimal [] h
  · exact readRoot_forestMembers_tidied minimal [] h

/-! ## Trees that a reader has given -/

theorem forestRebuilt_tidied_of_entries {minimal : Bool} {place : Pointer.Path}
    {inherited : Option TokenType} {es : List (String × Entry ι)} (h : ForestReadable inherited es)
    (he : (entriesTidied es).map (fun e => e.rebuilt minimal (place ++ [e.name]) inherited) =
      entriesRebuilt minimal place inherited es) :
    forestRebuilt minimal place inherited (forestTidied es) =
      forestRebuilt minimal place inherited es := by
  rw [forestRebuilt_forestTidied, rootFirst_eq_self, he, forestRebuilt]
  cases es with
  | nil => exact fun _ hm => nomatch hm
  | cons e es =>
    intro a ha
    rw [entriesTidied, List.tail_cons, entriesTidied_eq_map] at ha
    obtain ⟨e', he', hr⟩ := List.mem_map.1 ha
    rw [← hr, Entry.name_tidied]
    exact (h.2.1 e' he').2.1

mutual

theorem Entry.rebuilt_tidied (minimal : Bool) (place : Pointer.Path)
    {inherited : Option TokenType} : (e : Entry ι) → e.Readable inherited →
    e.tidied.rebuilt minimal place inherited = e.rebuilt minimal place inherited
  | .token _ _, _ => rfl
  | .group _ g children, h => by
    have hchildren := forestRebuilt_tidied_of_entries h.2
      (map_rebuilt_entriesTidied minimal place children h.2)
    exact congrArg (Entry.group place _) hchildren

/-- Tidying moves nothing in a tree that a reader has given. -/
theorem map_rebuilt_entriesTidied (minimal : Bool) (place : Pointer.Path)
    {inherited : Option TokenType} : (es : List (String × Entry ι)) → ForestReadable inherited es →
    (entriesTidied es).map (fun e => e.rebuilt minimal (place ++ [e.name]) inherited) =
      entriesRebuilt minimal place inherited es
  | [], _ => rfl
  | (_, e) :: es, h => by
    rw [entriesTidied, List.map_cons, entriesRebuilt, Entry.name_tidied,
      Entry.rebuilt_tidied minimal _ e h.1, map_rebuilt_entriesTidied minimal place es h.2.2]

end

theorem RootReadable.forestRebuilt_tidied {es : List (String × Entry ι)} (h : RootReadable es)
    (minimal : Bool) (place : Pointer.Path) :
    forestRebuilt minimal place none (forestTidied es) = forestRebuilt minimal place none es :=
  forestRebuilt_tidied_of_entries h.forest (map_rebuilt_entriesTidied minimal place es h.forest)

/-- The root of a document comes back. -/
theorem readRoot_forestMembers (minimal : Bool) (place : Pointer.Path)
    {es : List (String × Entry ι)} (h : RootReadable es) :
    readRoot place (forestMembers minimal none es) = pure (forestRebuilt minimal place none es) := by
  rw [readRoot_forestMembers_tidied minimal place h.writable, h.forestRebuilt_tidied]

/-- A written document comes back as a whole, with no issue. -/
theorem read_forestMembers (options : ReadOptions) (minimal : Bool) {es : List (String × Entry ι)}
    (h : RootReadable es) :
    Tree.read options (.object (forestMembers minimal none es)) =
      pure (forestRebuilt minimal [] none es) := by
  rw [read_forestMembers_tidied options minimal h.writable, h.forestRebuilt_tidied]

end DesignTokens
