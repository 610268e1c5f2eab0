/-
What the reader of trees gives, whatever the document: siblings with distinct
names and ascending keys, a group's own token first, and values that can be read
under the type that comes down to them (`ForestReadable`). Siblings get their
keys all at once, before any of them is read, so that one that is left out takes
its key with it and the others keep theirs.
-/
import DesignTokens.Document.Tree.Basic
import DesignTokens.Proofs.Document.Expansion
import DesignTokens.Proofs.Document.Tree.Tidied

namespace DesignTokens

variable {ι : Type}

mutual

/-- Every key below an entry may be given as a bound. -/
def Entry.Accepted : Entry ι → Prop
  | .token _ _ => True
  | .group _ _ children => ForestAccepted children

/-- Every key in a forest may be given as a bound. -/
def ForestAccepted : List (String × Entry ι) → Prop
  | [] => True
  | (order, e) :: es => OrderKey.Accepted order ∧ e.Accepted ∧ ForestAccepted es

end

theorem forestAccepted_iff {es : List (String × Entry ι)} :
    ForestAccepted es ↔ ∀ e ∈ es, OrderKey.Accepted e.1 ∧ e.2.Accepted := by
  induction es with
  | nil => simp [ForestAccepted]
  | cons e es ih => rw [ForestAccepted, ih, List.forall_mem_cons, and_assoc]

namespace Tree

/-! ## Siblings -/

/-- A sibling that was read has the name it was read under, and can be read again. -/
def Gives {ι : Type} (inherited : Option TokenType) (name : String)
    (r : Reading (Option (Entry ι))) : Prop :=
  ∀ e, r.value = some e → e.name = name ∧ e.Readable inherited

theorem mem_value_collect {ι : Type} {rs : List (String × Reading (Option (Entry ι)))}
    {e : String × Entry ι} (h : e ∈ (collect rs).value) :
    ∃ r, (e.1, r) ∈ rs ∧ r.value = some e.2 := by
  induction rs with
  | nil => cases h
  | cons r rs ih =>
    obtain ⟨order, r⟩ := r
    rw [collect, Reading.value_bind, Reading.value_bind, Reading.value_pure] at h
    have hrest : e ∈ (collect rs).value → ∃ r', (e.1, r') ∈ (order, r) :: rs ∧ r'.value = some e.2 := by
      intro h
      obtain ⟨r', hr', hv⟩ := ih h
      exact ⟨r', List.mem_cons_of_mem _ hr', hv⟩
    cases hv : r.value with
    | none =>
      rw [hv] at h
      exact hrest h
    | some e' =>
      rw [hv] at h
      rcases List.mem_cons.1 h with he | h
      · subst he
        exact ⟨r, List.mem_cons_self .., hv⟩
      · exact hrest h

theorem readable_collect {ι : Type} {inherited : Option TokenType} {orders : List String}
    {cs : List (String × Reading (Option (Entry ι)))} (ho : orders.Pairwise (· < ·))
    (hc : cs.Pairwise fun a b => b.1 ≠ a.1 ∧ b.1 ≠ rootTokenName)
    (hg : ∀ c ∈ cs, Gives inherited c.1 c.2) :
    ForestReadable inherited (collect (orders.zip (cs.map (·.2)))).value := by
  induction cs generalizing orders with
  | nil =>
    rw [List.map_nil, List.zip_nil_right]
    trivial
  | cons c cs ih =>
    cases orders with
    | nil => trivial
    | cons order orders =>
      obtain ⟨hc, hcs⟩ := List.pairwise_cons.1 hc
      obtain ⟨ho, hos⟩ := List.pairwise_cons.1 ho
      have hrest := ih hos hcs fun c' hc' => hg c' (List.mem_cons_of_mem _ hc')
      rw [List.map_cons, List.zip_cons_cons, collect, Reading.value_bind, Reading.value_bind,
        Reading.value_pure]
      cases hv : c.2.value with
      | none => exact hrest
      | some e =>
        obtain ⟨hname, hr⟩ := hg c (List.mem_cons_self ..) e hv
        refine ⟨hr, fun e' he' => ?_, hrest⟩
        obtain ⟨r, hmem, hv'⟩ := mem_value_collect he'
        obtain ⟨hk, hm⟩ := List.of_mem_zip hmem
        obtain ⟨c', hc', hcr⟩ := List.mem_map.1 hm
        subst hcr
        obtain ⟨hname', -⟩ := hg c' (List.mem_cons_of_mem _ hc') e'.2 hv'
        rw [hname, hname']
        exact ⟨(hc c' hc').1, (hc c' hc').2, ho _ hk⟩

/-- A group's own token and its children, with distinct names, in sibling order. -/
theorem readable_arrange {ι : Type} {inherited : Option TokenType}
    {own : Option (Reading (Option (Entry ι)))}
    {cs : List (String × Reading (Option (Entry ι)))} (hn : (Dict.keys cs).Nodup)
    (hown : ∀ r, own = some r → rootTokenName ∉ Dict.keys cs ∧ Gives inherited rootTokenName r)
    (hg : ∀ c ∈ cs, Gives inherited c.1 c.2) :
    ForestReadable inherited (arrange own cs).value := by
  rw [arrange_eq]
  refine readable_collect (OrderKey.pairwise_initial _) (pairwise_rootFirst ?_) fun c hc => ?_
  · cases own with
    | none => exact hn
    | some r => exact List.nodup_cons.2 ⟨(hown r rfl).1, hn⟩
  · rcases List.mem_append.1 (mem_rootFirst.1 hc) with hc | hc
    · obtain ⟨r, hr, he⟩ := List.mem_map.1 hc
      rw [← he]
      exact (hown r (Option.mem_toList.1 hr)).2
    · exact hg c hc

theorem mem_value_arrange {ι : Type} {cs : List (String × Reading (Option (Entry ι)))}
    {e : String × Entry ι} (h : e ∈ (arrange none cs).value) : ∃ c ∈ cs, c.2.value = some e.2 := by
  rw [arrange_eq] at h
  obtain ⟨r, hr, hv⟩ := mem_value_collect h
  obtain ⟨c, hc, he⟩ := List.mem_map.1 (List.of_mem_zip hr).2
  exact ⟨c, mem_rootFirst.1 hc, he ▸ hv⟩

theorem keys_readChildren (place : Pointer.Path) (inherited : Option TokenType) (ms : Members) :
    Dict.keys (readChildren place inherited ms) = (Dict.keys ms).filter fun k => Name.isChild k := by
  induction ms with
  | nil => rfl
  | cons m ms ih =>
    obtain ⟨k, raw⟩ := m
    rw [readChildren, Dict.keys_cons, List.filter_cons]
    split
    · rw [Dict.keys_cons, ih]
    · exact ih

/-! ## Entries -/

theorem gives_readToken {place : Pointer.Path} {inherited : Option TokenType} {name : String}
    (hname : name = rootTokenName ∨ Name.Valid name) (h : Header) (raw : Json) :
    Gives inherited name (readToken place inherited name h raw) := by
  intro e he
  unfold readToken at he
  split at he
  · next value hv =>
    cases he
    exact ⟨rfl, hname, raw, hv⟩
  · cases he

/-- Where an entry is read, it is read as a token, or as a group with all that is below it. -/
theorem readEntry_cases {place : Pointer.Path} {inherited : Option TokenType} {name : String}
    {raw : Json} {e : Entry Pointer.Path}
    (he : (readEntry place inherited name raw).value = some e) :
    ((name = rootTokenName ∨ Name.Valid name) ∧
      ∃ h raw', (readToken place inherited name h raw').value = some e) ∨
    (Name.Valid name ∧ ∃ (ms : Members) (h : Header) (own : Option _), raw = .object ms ∧
      e = .group place ⟨name, h.notes, h.declaredType⟩
        (arrange own (readChildren place (h.declaredType.or inherited) ms)).value ∧
      ∀ r, own = some r → rootTokenName ∉ Dict.keys ms ∧
        ∃ raw', r = readToken place (h.declaredType.or inherited) rootTokenName .empty raw') := by
  cases raw with
  | object ms =>
    rw [readEntry] at he
    split at he
    · cases he
    next hcheck =>
    rw [Reading.value_bind] at he
    split at he
    · cases he
    next h _ =>
    have hname : name = rootTokenName ∨ Name.Valid name := by
      by_cases hr : name = rootTokenName
      · exact .inl hr
      · rw [if_neg hr] at hcheck
        exact .inr hcheck
    by_cases hr : name = rootTokenName
    · simp only [if_pos hr] at he
      split at he
      · cases he
      · next raw _ =>
        split at he
        · cases he
        · exact .inl ⟨hname, h, raw, he⟩
    · simp only [if_neg hr] at he
      split at he
      · next raw _ _ => exact .inl ⟨hname, h, raw, he⟩
      · refine .inr ⟨hname.resolve_left hr, ms, h, ?_⟩
        split at he
        · cases he
          refine ⟨none, rfl, rfl, fun r hown => ?_⟩
          cases hown
        · next hroot =>
          cases he
          refine ⟨_, rfl, rfl, fun r hown => ?_⟩
          obtain ⟨raw, hraw, hr⟩ := Option.map_eq_some_iff.1 hown
          rw [hraw, Option.isSome_some, Bool.and_true, Dict.contains, Dict.isSome_get?_iff] at hroot
          exact ⟨hroot, raw, hr.symm⟩
  | _ =>
    rw [readEntry] at he
    · split at he <;> cases he
    · intro ms h
      cases h

mutual

/-- What an entry of a document is read as. -/
theorem gives_readEntry (place : Pointer.Path) (inherited : Option TokenType) (name : String) :
    (raw : Json) → raw.WellFormed → Gives inherited name (readEntry place inherited name raw)
  | .object ms, hms, e, he => by
    rcases readEntry_cases he with ⟨hname, h, raw, he⟩ | ⟨hvalid, _, h, own, hraw, rfl, hown⟩
    · exact gives_readToken hname h raw e he
    · cases hraw
      have hkeys := keys_readChildren place (h.declaredType.or inherited) ms
      have hchildren := gives_readChildren place (h.declaredType.or inherited) ms hms.2
      refine ⟨rfl, hvalid, readable_arrange (hkeys ▸ hms.1.filter _) (fun r hr => ?_) hchildren⟩
      obtain ⟨hroot, raw, rfl⟩ := hown r hr
      rw [hkeys]
      exact ⟨fun hk => hroot (List.mem_filter.1 hk).1, gives_readToken (.inl rfl) .empty raw⟩
  | .null, _, _, he | .bool _, _, _, he | .number _, _, _, he | .string _, _, _, he
  | .array _, _, _, he => by
    rcases readEntry_cases he with ⟨hname, h, raw, he⟩ | ⟨_, _, _, _, hraw, _⟩
    · exact gives_readToken hname h raw _ he
    · cases hraw

theorem gives_readChildren (place : Pointer.Path) (inherited : Option TokenType) :
    (ms : List (String × Json)) → Json.WellFormedMembers ms →
    ∀ c ∈ readChildren place inherited ms, Gives inherited c.1 c.2
  | [], _, _, hc => nomatch hc
  | (k, raw) :: ms, h, c, hc => by
    rw [readChildren] at hc
    split at hc
    · rcases List.mem_cons.1 hc with he | hc
      · rw [he]
        exact gives_readEntry _ inherited k raw h.1
      · exact gives_readChildren place inherited ms h.2 c hc
    · exact gives_readChildren place inherited ms h.2 c hc

end

/-! ## Keys -/

/-- What is read has keys below it that may be given as bounds. -/
def GivesAccepted (r : Reading (Option (Entry ι))) : Prop := ∀ e, r.value = some e → e.Accepted

theorem accepted_arrange {own : Option (Reading (Option (Entry ι)))}
    {cs : List (String × Reading (Option (Entry ι)))} (hown : ∀ r ∈ own, GivesAccepted r)
    (hcs : ∀ c ∈ cs, GivesAccepted c.2) : ForestAccepted (arrange own cs).value := by
  rw [arrange_eq, forestAccepted_iff]
  intro e he
  obtain ⟨r, hmem, hv⟩ := mem_value_collect he
  obtain ⟨ho, hsibling⟩ := List.of_mem_zip hmem
  refine ⟨OrderKey.accepted_of_mem_initial ho, ?_⟩
  obtain ⟨c, hc, rfl⟩ := List.mem_map.1 hsibling
  rcases List.mem_append.1 (mem_rootFirst.1 hc) with hc | hc
  · obtain ⟨r', hr', rfl⟩ := List.mem_map.1 hc
    exact hown r' (Option.mem_toList.1 hr') e.2 hv
  · exact hcs c hc e.2 hv

theorem accepted_readToken {place : Pointer.Path} {inherited : Option TokenType} {name : String}
    {h : Header} {raw : Json} : GivesAccepted (readToken place inherited name h raw) := by
  intro e he
  unfold readToken at he
  split at he
  · cases he
    trivial
  · cases he

mutual

theorem accepted_readEntry (place : Pointer.Path) (inherited : Option TokenType) (name : String) :
    (raw : Json) → GivesAccepted (readEntry place inherited name raw)
  | .object ms, e, he => by
    rcases readEntry_cases he with ⟨-, h, raw, he⟩ | ⟨-, _, h, own, hraw, rfl, hown⟩
    · exact accepted_readToken e he
    · cases hraw
      refine accepted_arrange (fun r hr => ?_) (accepted_readChildren place _ ms)
      obtain ⟨-, raw, rfl⟩ := hown r hr
      exact accepted_readToken
  | .null, _, he | .bool _, _, he | .number _, _, he | .string _, _, he | .array _, _, he => by
    rcases readEntry_cases he with ⟨-, h, raw, he⟩ | ⟨-, _, _, _, hraw, -⟩
    · exact accepted_readToken _ he
    · cases hraw

theorem accepted_readChildren (place : Pointer.Path) (inherited : Option TokenType) :
    (ms : List (String × Json)) → ∀ c ∈ readChildren place inherited ms, GivesAccepted c.2
  | [], _, hc => nomatch hc
  | (k, raw) :: ms, c, hc => by
    rw [readChildren] at hc
    split at hc
    · rcases List.mem_cons.1 hc with rfl | hc
      · exact accepted_readEntry _ inherited k raw
      · exact accepted_readChildren place inherited ms c hc
    · exact accepted_readChildren place inherited ms c hc

end

/-! ## Documents -/

theorem value_expandValues_wellFormed {doc : Json} (h : doc.WellFormed) (base : Pointer.Path) :
    (Expansion.expandValues doc base).value.WellFormed := by
  rw [Expansion.expandValues, Reading.value_bind, Reading.value_pure]
  cases hv : (Expansion.expandEntry doc base doc).value with
  | none => exact h
  | some v => exact Expansion.wellFormed_expandEntry h base doc h v hv

theorem readable_readRoot {place : Pointer.Path} {ms : Members} (h : (Json.object ms).WellFormed) :
    RootReadable (readRoot place ms).value := by
  have hkeys : (Dict.keys ((readChildren place none ms).filter fun c => c.1 ≠ rootTokenName)).Nodup := by
    refine List.Nodup.sublist (List.filter_sublist.map _) ?_
    rw [← Dict.keys, keys_readChildren]
    exact h.1.filter _
  have hgives := gives_readChildren place none ms h.2
  refine ⟨readable_arrange hkeys (by simp) fun c hc => hgives c (List.mem_filter.1 hc).1, ?_⟩
  intro e he
  obtain ⟨c, hc, hv⟩ := mem_value_arrange he
  obtain ⟨hc, hr⟩ := List.mem_filter.1 hc
  rw [(hgives c hc e.2 hv).1]
  simpa using hr

/-- **Whatever a document says, the tree that is read of it can be read again.** -/
theorem readable_read {options : ReadOptions} {doc : Json} (h : doc.WellFormed) :
    RootReadable (Tree.read options doc).value := by
  cases doc with
  | object ms =>
    simp only [Tree.read]
    split
    · have hw := value_expandValues_wellFormed h []
      rw [Reading.value_bind]
      cases hv : (Expansion.expandValues (.object ms) []).value with
      | object ms' =>
        rw [hv] at hw
        exact readable_readRoot hw
      | _ => exact readable_readRoot h
    · exact readable_readRoot h
  | _ => exact ⟨trivial, fun _ he => absurd he List.not_mem_nil⟩

theorem accepted_readRoot (place : Pointer.Path) (ms : Members) :
    ForestAccepted (readRoot place ms).value :=
  accepted_arrange nofun fun c hc =>
    accepted_readChildren place none ms c (List.mem_filter.1 hc).1

theorem accepted_read (options : ReadOptions) (doc : Json) :
    ForestAccepted (Tree.read options doc).value := by
  cases doc with
  | object ms =>
    simp only [Tree.read]
    split
    · rw [Reading.value_bind]
      exact accepted_readRoot [] _
    · exact accepted_readRoot [] ms
  | _ => trivial

end Tree

end DesignTokens
