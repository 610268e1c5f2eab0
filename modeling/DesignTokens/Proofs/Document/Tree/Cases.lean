/-
Every way in which an entry is read. `ReadAs` lists what can become of an object
under a good name once its header is known, with all that each way asks for;
`readEntry_object` puts the bad names and the bad headers before it. What is
shown of every entry is shown by these cases.
-/
import DesignTokens.Proofs.Document.Tree.Reading

namespace DesignTokens.Tree

section

variable {ι : Type} {own : Option (Reading (Option (Entry ι)))}
  {cs : List (String × Reading (Option (Entry ι)))}

/-! ## Siblings -/

theorem value_collect (rs : List (String × Reading (Option (Entry ι)))) :
    (collect rs).value = rs.filterMap fun r => r.2.value.map (r.1, ·) := by
  induction rs with
  | nil => rfl
  | cons r rs ih =>
    rw [collect, Reading.value_bind, Reading.value_bind, Reading.value_pure, ih, List.filterMap_cons]
    cases r.2.value <;> rfl

theorem issues_collect (rs : List (String × Reading (Option (Entry ι)))) :
    (collect rs).issues = rs.flatMap fun r => r.2.issues := by
  induction rs with
  | nil => rfl
  | cons r rs ih =>
    rw [collect, Reading.issues_bind, Reading.issues_bind, ih, List.flatMap_cons,
      Reading.issues_pure, List.append_nil]

/-- What is arranged is the group's own token, if there is one, and the children. -/
theorem mem_arranged_iff {r : Reading (Option (Entry ι))} :
    (∃ order, (order, r) ∈ (OrderKey.initial (own.toList.length + cs.length)).zip
      ((rootFirst Prod.fst (own.toList.map (rootTokenName, ·) ++ cs)).map (·.2))) ↔
      own = some r ∨ ∃ k, (k, r) ∈ cs := by
  constructor
  · rintro ⟨order, h⟩
    obtain ⟨⟨k, r'⟩, hc, rfl⟩ := List.mem_map.1 (List.of_mem_zip h).2
    rcases List.mem_append.1 (mem_rootFirst.1 hc) with hc | hc
    · obtain ⟨r'', hr, he⟩ := List.mem_map.1 hc
      cases he
      exact .inl (Option.mem_toList.1 hr)
    · exact .inr ⟨k, hc⟩
  · intro h
    have hzip : ((OrderKey.initial (own.toList.length + cs.length)).zip
        ((rootFirst Prod.fst (own.toList.map (rootTokenName, ·) ++ cs)).map (·.2))).map Prod.snd = _ :=
      List.map_snd_zip (by simp [length_rootFirst])
    have hmem : r ∈ (rootFirst Prod.fst (own.toList.map (rootTokenName, ·) ++ cs)).map (·.2) := by
      obtain rfl | ⟨k, hk⟩ := h
      · exact List.mem_map.2 ⟨(rootTokenName, r), mem_rootFirst.2 (by simp), rfl⟩
      · exact List.mem_map.2 ⟨(k, r), mem_rootFirst.2 (List.mem_append_right _ hk), rfl⟩
    rw [← hzip] at hmem
    obtain ⟨⟨order, r'⟩, hx, rfl⟩ := List.mem_map.1 hmem
    exact ⟨order, hx⟩

theorem mem_issues_arrange_iff {i : Issue} : i ∈ (arrange own cs).issues ↔
    ∃ r, (own = some r ∨ ∃ k, (k, r) ∈ cs) ∧ i ∈ r.issues := by
  rw [arrange_eq, issues_collect]
  simp only [List.mem_flatMap, ← mem_arranged_iff]
  constructor
  · rintro ⟨⟨order, r⟩, hr, hi⟩
    exact ⟨r, ⟨order, hr⟩, hi⟩
  · rintro ⟨r, ⟨order, hr⟩, hi⟩
    exact ⟨(order, r), hr, hi⟩

theorem mem_value_arrange_cases {e : String × Entry ι} (h : e ∈ (arrange own cs).value) :
    ∃ r, (own = some r ∨ ∃ k, (k, r) ∈ cs) ∧ r.value = some e.2 := by
  rw [arrange_eq] at h
  obtain ⟨r, hr, hv⟩ := mem_value_collect h
  exact ⟨r, mem_arranged_iff.1 ⟨_, hr⟩, hv⟩

end

/-! ## Children -/

theorem hasChildren_iff {ms : Members} : hasChildren ms ↔ ∃ k raw, (k, raw) ∈ ms ∧ Name.isChild k := by
  simp [hasChildren]

/-- What is read of children is what is read of each. -/
theorem mem_readChildren_iff {place : Pointer.Path} {inherited : Option TokenType} {ms : Members}
    {k : String} {r : Reading (Option (Entry Pointer.Path))} :
    (k, r) ∈ readChildren place inherited ms ↔ Name.isChild k ∧
      ∃ raw, (k, raw) ∈ ms ∧ r = readEntry (place ++ [k]) inherited k raw := by
  induction ms with
  | nil => simp [readChildren]
  | cons m ms ih =>
    obtain ⟨k', raw⟩ := m
    rw [readChildren]
    split
    · next hk =>
      simp only [List.mem_cons, ih, Prod.mk.injEq, or_and_right, exists_or, and_or_left]
      refine or_congr ⟨?_, ?_⟩ Iff.rfl
      · rintro ⟨rfl, rfl⟩
        exact ⟨hk, raw, ⟨rfl, rfl⟩, rfl⟩
      · rintro ⟨-, _, ⟨rfl, rfl⟩, rfl⟩
        exact ⟨rfl, rfl⟩
    · next hk =>
      simp only [List.mem_cons, ih, Prod.mk.injEq, or_and_right, exists_or, and_or_left]
      refine (or_iff_right ?_).symm
      rintro ⟨hk', _, ⟨rfl, -⟩, -⟩
      exact hk hk'

/-! ## Entries -/

theorem bind_of_value {α β : Type} {r : Reading α} {f : α → Reading β} {a : α} (h : r.value = a) :
    r >>= f = (do
      let _ ← r
      f a) := by
  subst h
  rfl

section

variable (place : Pointer.Path) (inherited : Option TokenType) (name : String)

/-- The ways in which an object with a good name and a good header is read. -/
inductive ReadAs (h : Header) (ms : Members) : Reading (Option (Entry Pointer.Path)) → Prop
  | rootWithoutValue (hn : name = rootTokenName) (hv : Key.value ∉ Dict.keys ms) :
      ReadAs h ms (.withIssue none place .rootTokenWithoutValue)
  | rootWithChildren (hn : name = rootTokenName) (hv : Key.value ∈ Dict.keys ms)
      (hc : hasChildren ms) : ReadAs h ms (.withIssue none place .rootTokenWithChildren)
  | token {raw : Json} (hv : Dict.get? ms Key.value = some raw) (hc : hasChildren ms = false) :
      ReadAs h ms (readToken place inherited name h raw)
  | besideRoot (hn : name ≠ rootTokenName) (hv : Key.value ∈ Dict.keys ms)
      (hr : rootTokenName ∈ Dict.keys ms) :
      ReadAs h ms (do
        Reading.report (place ++ [Key.value]) .valueBesideRootToken
        let children ← arrange none (readChildren place (h.declaredType.or inherited) ms)
        return some (.group place ⟨name, h.notes, h.declaredType⟩ children))
  | group (hn : name ≠ rootTokenName) (hv : Key.value ∈ Dict.keys ms → hasChildren ms)
      (hr : Key.value ∈ Dict.keys ms → rootTokenName ∉ Dict.keys ms) :
      ReadAs h ms (do
        let own := (Dict.get? ms Key.value).map
          (readToken place (h.declaredType.or inherited) rootTokenName .empty)
        let children ← arrange own (readChildren place (h.declaredType.or inherited) ms)
        return some (.group place ⟨name, h.notes, h.declaredType⟩ children))

/-- What can become of an object: its name is bad, its header is, or it is read in one of the ways. -/
theorem readEntry_object (ms : Members) :
    (∃ e, readEntry place inherited name (.object ms) = .withIssue none place (.badName e)) ∨
    (name = rootTokenName ∨ Name.Valid name) ∧
      ((Header.read place .empty ms).value = none ∧
          readEntry place inherited name (.object ms) = (do
            let _ ← Header.read place .empty ms
            return none) ∨
        ∃ h r, (Header.read place .empty ms).value = some h ∧
          ReadAs place inherited name h ms r ∧
          readEntry place inherited name (.object ms) = (do
            let _ ← Header.read place .empty ms
            r)) := by
  rw [readEntry]
  split
  · next e _ => exact .inl ⟨e, rfl⟩
  next hcheck =>
  have hname : name = rootTokenName ∨ Name.Valid name := by
    by_cases hr : name = rootTokenName
    · exact .inl hr
    · rw [if_neg hr] at hcheck
      exact .inr hcheck
  refine .inr ⟨hname, ?_⟩
  cases hh : (Header.read place .empty ms).value with
  | none => exact .inl ⟨rfl, bind_of_value hh⟩
  | some h =>
    refine .inr ⟨h, _, rfl, ?_, bind_of_value hh⟩
    by_cases hr : name = rootTokenName
    · simp only [if_pos hr]
      split
      · next hv => exact .rootWithoutValue hr (Dict.get?_eq_none_iff.1 hv)
      next raw hv =>
      split
      · next hc => exact .rootWithChildren hr (Dict.mem_keys_of_get? hv) hc
      · next hc => exact .token hv (Bool.eq_false_iff.2 hc)
    · simp only [if_neg hr]
      split
      · next raw hv hc => exact .token hv hc
      next hnot =>
      split
      · next hb =>
        simp only [Dict.contains, Bool.and_eq_true, Dict.isSome_get?_iff] at hb
        exact .besideRoot hr hb.2 hb.1
      · next hb =>
        simp only [Dict.contains, Bool.and_eq_true, Dict.isSome_get?_iff, not_and] at hb
        refine .group hr (fun hv => ?_) fun hv hroot => hb hroot hv
        obtain ⟨raw, hraw⟩ := Option.isSome_iff_exists.1 (Dict.isSome_get?_iff.2 hv)
        exact Bool.not_eq_false _ ▸ hnot raw hraw

end

end DesignTokens.Tree
