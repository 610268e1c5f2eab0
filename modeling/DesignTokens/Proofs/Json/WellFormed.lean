/-
Values in which no object repeats a key. The parts of such a value are such
values, and so is what layers of them are merged into. Reading a text builds no
other value (`Json.wellFormed_of_parse?`): members go into an object one by one,
each under a key of its own.
-/
import DesignTokens.Json.Merge
import DesignTokens.Json.Parser
import DesignTokens.Pointer.Fragment
import DesignTokens.Proofs.Dict

namespace DesignTokens.Json

theorem wellFormedItems_iff {items : List Json} :
    WellFormedItems items ↔ ∀ v ∈ items, v.WellFormed := by
  induction items with
  | nil => exact ⟨fun _ => nofun, fun _ => trivial⟩
  | cons v items ih => rw [WellFormedItems, ih, List.forall_mem_cons]

theorem wellFormedMembers_iff {ms : Members} :
    WellFormedMembers ms ↔ ∀ m ∈ ms, m.2.WellFormed := by
  induction ms with
  | nil => exact ⟨fun _ => nofun, fun _ => trivial⟩
  | cons m ms ih => rw [WellFormedMembers, ih, List.forall_mem_cons]

/-! ## Parts -/

theorem sizeOf_lt_of_mem {k : String} {v : Json} {ms : Members} (h : (k, v) ∈ ms) :
    sizeOf v < sizeOf ms := by
  have hlt := List.sizeOf_lt_of_mem h
  simp only [Prod.mk.sizeOf_spec] at hlt
  omega

theorem WellFormed.of_get? {ms : Members} {k : String} {v : Json} (h : WellFormedMembers ms)
    (hv : Dict.get? ms k = some v) : v.WellFormed :=
  wellFormedMembers_iff.1 h (k, v) (Dict.mem_of_get? hv)

theorem WellFormed.of_getElem? {items : List Json} {i : Nat} {v : Json}
    (h : WellFormedItems items) (hv : items[i]? = some v) : v.WellFormed :=
  wellFormedItems_iff.1 h v (List.mem_of_getElem? hv)

theorem WellFormed.of_items? {v : Json} {items : List Json} (h : v.WellFormed)
    (hi : v.items? = some items) : ∀ w ∈ items, w.WellFormed := by
  cases v with
  | array items' =>
    cases hi
    exact wellFormedItems_iff.1 h
  | _ => cases hi

theorem WellFormed.of_members? {v : Json} {ms : Members} (h : v.WellFormed)
    (hm : v.members? = some ms) : (object ms).WellFormed := by
  cases v with
  | object ms' =>
    cases hm
    exact h
  | _ => cases hm

theorem WellFormed.of_findFrom {walked path : Pointer.Path} {v w : Json} (h : v.WellFormed)
    (hw : Pointer.findFrom walked v path = .ok w) : w.WellFormed := by
  induction path generalizing walked v with
  | nil =>
    cases hw
    exact h
  | cons step path ih =>
    cases v with
    | array items =>
      simp only [Pointer.findFrom] at hw
      split at hw
      · cases hw
      · split at hw
        · cases hw
        · next hi => exact ih (of_getElem? h hi) hw
    | object ms =>
      simp only [Pointer.findFrom] at hw
      split at hw
      · cases hw
      · next hm => exact ih (of_get? h.2 hm) hw
    | _ => cases hw

theorem WellFormed.of_atFragment {doc v : Json} {reference : String} (h : doc.WellFormed)
    (hv : Pointer.atFragment doc reference = .ok v) : v.WellFormed := by
  obtain ⟨path, -, hfind⟩ := Pointer.exists_path_of_atFragment hv
  exact h.of_findFrom hfind

/-! ## Merging -/

theorem wellFormed_object_insert {ms : Members} (h : (Json.object ms).WellFormed) (k : String)
    {v : Json} (hv : v.WellFormed) : (Json.object (Dict.insert ms k v)).WellFormed := by
  refine ⟨Dict.nodup_keys_insert h.1 k v, wellFormedMembers_iff.2 fun m hm => ?_⟩
  rcases (Dict.mem_insert h.1).1 hm with he | ⟨-, hm⟩
  · rw [he]
    exact hv
  · exact wellFormedMembers_iff.1 h.2 m hm

mutual

theorem wellFormed_merge {isLeaf : Members → Bool} {base : Json} (hb : base.WellFormed) :
    (overlay : Json) → overlay.WellFormed → (merge isLeaf base overlay).WellFormed
  | .object upper, h => by
    cases base with
    | object lower =>
      rw [merge]
      split
      · exact h
      · exact wellFormed_mergeMembers hb upper h.2
    | _ => exact h
  | .null, h | .bool _, h | .number _, h | .string _, h | .array _, h => by
    rw [merge]
    · exact h
    · exact nofun

theorem wellFormed_mergeMembers {isLeaf : Members → Bool} {base : Members}
    (hb : (Json.object base).WellFormed) : (upper : List (String × Json)) →
    WellFormedMembers upper → (Json.object (mergeMembers isLeaf base upper)).WellFormed
  | [], _ => hb
  | (k, v) :: upper, h => by
    rw [mergeMembers]
    refine wellFormed_mergeMembers (wellFormed_object_insert hb k ?_) upper h.2
    split
    · next u hu => exact wellFormed_merge (WellFormed.of_get? hb.2 hu) v h.1
    · exact h.1

end

theorem wellFormed_mergeLayers {isLeaf : Members → Bool} {layers : List Json}
    (h : ∀ v ∈ layers, v.WellFormed) : (mergeLayers isLeaf layers).WellFormed := by
  have hfold : ∀ base : Json, base.WellFormed → (layers.foldl (merge isLeaf) base).WellFormed := by
    induction layers with
    | nil => exact fun _ hb => hb
    | cons v layers ih =>
      obtain ⟨hv, hvs⟩ := List.forall_mem_cons.1 h
      exact fun base hb => ih hvs _ (wellFormed_merge hb v hv)
  exact hfold _ ⟨.nil, trivial⟩

/-- Members under new keys go to the end together. -/
theorem mergeMembers_eq_append {isLeaf : Members → Bool} (lower : Members) {upper : Members}
    (hn : (Dict.keys (lower ++ upper)).Nodup) :
    mergeMembers isLeaf lower upper = lower ++ upper := by
  induction upper generalizing lower with
  | nil => rw [mergeMembers, List.append_nil]
  | cons m upper ih =>
    obtain ⟨k, v⟩ := m
    have hk : k ∉ Dict.keys lower := by
      rw [Dict.keys, List.map_append, List.nodup_append] at hn
      exact fun hk => hn.2.2 k hk k (List.mem_cons_self ..) rfl
    rw [mergeMembers, Dict.get?_eq_none_iff.2 hk, Dict.insert_of_notMem hk, ih, List.append_assoc,
      List.singleton_append]
    rwa [List.append_assoc, List.singleton_append]

/-- A single layer stays as it is. -/
theorem mergeLayers_singleton {isLeaf : Members → Bool} {ms : Members}
    (h : (Dict.keys ms).Nodup) : mergeLayers isLeaf [.object ms] = .object ms := by
  show merge isLeaf (.object []) (.object ms) = _
  rw [merge]
  split
  · rfl
  · rw [mergeMembers_eq_append [] h, List.nil_append]

/-! ## Reading text -/

/-- What is complete in an open container has distinct keys. -/
def Frame.WellFormed : Frame → Prop
  | .array items => ∀ v ∈ items, v.WellFormed
  | .object ms _ => (Json.object ms).WellFormed

/-- What has been read so far has distinct keys. -/
def Parse.WellFormed : Parse → Prop
  | .value outer | .arrayStart outer | .objectStart outer => ∀ f ∈ outer, f.WellFormed
  | .arrayNext items outer => (∀ v ∈ items, v.WellFormed) ∧ ∀ f ∈ outer, f.WellFormed
  | .objectKey ms outer | .objectColon ms _ outer | .objectNext ms outer =>
    (Json.object ms).WellFormed ∧ ∀ f ∈ outer, f.WellFormed
  | .done v => v.WellFormed

namespace Parse

theorem wellFormed_complete {v : Json} (hv : v.WellFormed) {outer : List Frame}
    (ho : ∀ f ∈ outer, f.WellFormed) : (complete v outer).WellFormed := by
  cases outer with
  | nil => exact hv
  | cons f outer =>
    obtain ⟨hf, houter⟩ := List.forall_mem_cons.1 ho
    cases f with
    | array items => exact ⟨List.forall_mem_cons.2 ⟨hv, hf⟩, houter⟩
    | object ms k => exact ⟨wellFormed_object_insert hf k hv, houter⟩

theorem wellFormed_begin? {depth : Nat} {outer : List Frame} (ho : ∀ f ∈ outer, f.WellFormed)
    {t : Token} {p : Parse} (h : begin? depth outer t = some p) : p.WellFormed := by
  cases t with
  | arrayOpen | objectOpen =>
    simp only [begin?] at h
    split at h <;> cases h
    exact ho
  | null | bool | number | string =>
    cases h
    refine wellFormed_complete ?_ ho
    trivial
  | _ => cases h

theorem wellFormed_step? {depth : Nat} {p q : Parse} (hp : p.WellFormed) {t : Token}
    (h : step? depth p t = some q) : q.WellFormed := by
  unfold step? at h
  split at h
  · exact wellFormed_begin? hp h
  · cases h
    refine wellFormed_complete ?_ hp
    trivial
  · refine wellFormed_begin? (List.forall_mem_cons.2 ⟨?_, hp⟩) h
    exact fun v hv => absurd hv List.not_mem_nil
  · cases h
    refine wellFormed_complete ?_ hp.2
    exact wellFormedItems_iff.2 fun v hv => hp.1 v (List.mem_reverse.1 hv)
  · cases h
    exact List.forall_mem_cons.2 hp
  · cases h
    refine wellFormed_complete ?_ hp
    exact ⟨.nil, trivial⟩
  · cases h
    exact ⟨⟨.nil, trivial⟩, hp⟩
  · cases h
    exact hp
  · cases h
    exact List.forall_mem_cons.2 hp
  · cases h
    exact wellFormed_complete hp.1 hp.2
  · cases h
    exact hp
  · cases h

end Parse

/-- No object of a value that was read from a text repeats a key. -/
theorem wellFormed_of_parse? {text : String} {v : Json} (h : parse? text = some v) :
    v.WellFormed := by
  have hrun : ∀ (ts : List Token) (p q : Parse), p.WellFormed →
      ts.foldlM (Parse.step? maxDepth) p = some q → q.WellFormed := by
    intro ts
    induction ts with
    | nil =>
      intro p q hp hq
      cases hq
      exact hp
    | cons t ts ih =>
      intro p q hp hq
      rw [List.foldlM_cons, Option.bind_eq_bind, Option.bind_eq_some_iff] at hq
      obtain ⟨r, hr, hq⟩ := hq
      exact ih r q (Parse.wellFormed_step? hp hr) hq
  simp only [parse?, parseWithin?, Option.bind_eq_bind, Option.bind_eq_some_iff] at h
  obtain ⟨ts, -, p, hp, hv⟩ := h
  have hw := hrun ts (.value []) p nofun hp
  cases p with
  | done w =>
    cases hv
    exact hw
  | _ => cases hv

end DesignTokens.Json
