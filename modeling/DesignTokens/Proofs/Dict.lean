/-
Dictionaries with distinct keys, entry by entry: a pair belongs to such a
dictionary just if its value is found under its key, and a write or a removal
touches the pair under its own key alone. Of many writes the last one under each
key counts (`get?_insertAll`), where the key first came (`keys_insertAll`).
-/
import Mathlib.Data.List.Induction
import DesignTokens.Dict

namespace DesignTokens.Dict

variable {κ ν : Type}

theorem mem_keys_of_mem {d : List (κ × ν)} {k : κ} {v : ν} (h : (k, v) ∈ d) : k ∈ keys d :=
  List.mem_map.2 ⟨(k, v), h, rfl⟩

theorem keys_map {κ' ν' : Type} (f : κ → κ') (g : ν → ν') (d : List (κ × ν)) :
    keys (d.map (Prod.map f g)) = (keys d).map f := by
  rw [keys, keys, List.map_map, List.map_map]
  rfl

variable [DecidableEq κ]

theorem get?_eq_none_iff {d : List (κ × ν)} {k : κ} : get? d k = none ↔ k ∉ keys d := by
  induction d with
  | nil => simp
  | cons p d ih =>
    by_cases hk : p.1 = k
    · simp [get?, hk]
    · have hk' : k ≠ p.1 := fun he => hk he.symm
      simp [get?, hk, hk', ih]

theorem isSome_get?_iff {d : List (κ × ν)} {k : κ} : (get? d k).isSome ↔ k ∈ keys d := by
  rw [Option.isSome_iff_ne_none, ne_eq, get?_eq_none_iff, Decidable.not_not]

/-- Under distinct keys a pair of a dictionary is what is found under its key. -/
theorem get?_of_mem {d : List (κ × ν)} (hd : (keys d).Nodup) {k : κ} {v : ν} (h : (k, v) ∈ d) :
    get? d k = some v := by
  induction d with
  | nil => cases h
  | cons p d ih =>
    obtain ⟨k', v'⟩ := p
    simp only [keys_cons, List.nodup_cons] at hd
    rcases List.mem_cons.1 h with he | h
    · cases he
      simp [get?]
    · have hne : k' ≠ k := fun he => hd.1 (he ▸ mem_keys_of_mem h)
      simpa [get?, hne] using ih hd.2 h

theorem get?_eq_some_iff {d : List (κ × ν)} (hd : (keys d).Nodup) {k : κ} {v : ν} :
    get? d k = some v ↔ (k, v) ∈ d :=
  ⟨mem_of_get?, get?_of_mem hd⟩

/-- What is found under a key stands in the first pair with that key. -/
theorem get?_eq_some_iff_first {d : List (κ × ν)} {k : κ} {v : ν} :
    get? d k = some v ↔ ∃ i, d[i]? = some (k, v) ∧ k ∉ keys (d.take i) := by
  induction d with
  | nil => simp
  | cons p d ih =>
    obtain ⟨k', v'⟩ := p
    by_cases hk : k' = k
    · subst hk
      rw [get?, if_pos rfl]
      constructor
      · rintro ⟨⟩
        exact ⟨0, rfl, List.not_mem_nil⟩
      · rintro ⟨i, hi, hfirst⟩
        cases i with
        | zero =>
          cases hi
          rfl
        | succ i => exact absurd List.mem_cons_self hfirst
    · rw [get?, if_neg hk, ih]
      constructor
      · rintro ⟨i, hi, hfirst⟩
        exact ⟨i + 1, hi, List.not_mem_cons_of_ne_of_not_mem (Ne.symm hk) hfirst⟩
      · rintro ⟨i, hi, hfirst⟩
        cases i with
        | zero =>
          cases hi
          exact absurd rfl hk
        | succ i => exact ⟨i, hi, fun hm => hfirst (List.mem_cons_of_mem _ hm)⟩

omit [DecidableEq κ] in
/-- No pair with a key stands before the first one. -/
theorem le_of_first {d : List (κ × ν)} {k : κ} {v : ν} {i j : Nat} (lies : d[i]? = some (k, v))
    (first : k ∉ keys (d.take j)) : j ≤ i := by
  refine Nat.le_of_not_lt fun hlt => first ?_
  have htake : (d.take j)[i]? = some (k, v) := by rw [List.getElem?_take_of_lt hlt, lies]
  exact mem_keys_of_mem (List.mem_of_getElem? htake)

/-- A key is still there if what stands under it passes. -/
theorem mem_keys_filter_iff {d : List (κ × ν)} (hd : (keys d).Nodup) {k : κ} {v : ν}
    (h : get? d k = some v) (q : ν → Bool) : k ∈ keys (d.filter fun p => q p.2) ↔ q v := by
  rw [keys, List.mem_map]
  constructor
  · rintro ⟨⟨k', v'⟩, hp, rfl⟩
    obtain ⟨hmem, hq⟩ := List.mem_filter.1 hp
    have hv := (get?_of_mem hd hmem).symm.trans h
    exact Option.some.inj hv ▸ hq
  · exact fun hq => ⟨(k, v), List.mem_filter.2 ⟨mem_of_get? h, hq⟩, rfl⟩

/-- The order of keys that do not repeat does not matter to what is under them. -/
theorem get?_of_perm {d d' : List (κ × ν)} (h : d.Perm d') (hd : (keys d').Nodup) (k : κ) :
    get? d k = get? d' k := by
  have hd' : (keys d).Nodup := ((h.map Prod.fst).nodup_iff).2 hd
  ext v
  rw [get?_eq_some_iff hd', get?_eq_some_iff hd, h.mem_iff]

/-- A new key goes to the end. -/
theorem insert_of_notMem {d : List (κ × ν)} {k : κ} (h : k ∉ keys d) (v : ν) :
    insert d k v = d ++ [(k, v)] := by
  induction d with
  | nil => rfl
  | cons p d ih =>
    simp only [keys_cons, List.mem_cons, not_or] at h
    have hk : p.1 ≠ k := fun he => h.1 he.symm
    simp [insert, hk, ih h.2]

/-- What is there already is written without effect. -/
theorem insert_of_get? {d : List (κ × ν)} {k : κ} {v : ν} (h : get? d k = some v) :
    insert d k v = d := by
  induction d with
  | nil => cases h
  | cons p d ih =>
    obtain ⟨k', v'⟩ := p
    by_cases hk : k' = k
    · subst hk
      rw [get?, if_pos rfl, Option.some.injEq] at h
      rw [insert, if_pos rfl, h]
    · rw [get?, if_neg hk] at h
      rw [insert, if_neg hk, ih h]

theorem eq_or_mem_of_mem_insert {d : List (κ × ν)} {k : κ} {v : ν} {p : κ × ν}
    (h : p ∈ insert d k v) : p = (k, v) ∨ p ∈ d := by
  induction d with
  | nil => exact .inl (List.mem_singleton.1 h)
  | cons q d ih =>
    by_cases hk : q.1 = k
    · rw [insert, if_pos hk] at h
      exact (List.mem_cons.1 h).imp_right (List.mem_cons_of_mem q)
    · rw [insert, if_neg hk] at h
      rcases List.mem_cons.1 h with rfl | h
      · exact .inr List.mem_cons_self
      · exact (ih h).imp_right (List.mem_cons_of_mem q)

theorem mem_insert {d : List (κ × ν)} (hd : (keys d).Nodup) {k : κ} {v : ν} {p : κ × ν} :
    p ∈ insert d k v ↔ p = (k, v) ∨ p.1 ≠ k ∧ p ∈ d := by
  obtain ⟨k', v'⟩ := p
  rw [← get?_eq_some_iff (nodup_keys_insert hd k v)]
  by_cases hk : k = k'
  · subst hk
    simp [eq_comm]
  · have hk' : k' ≠ k := fun he => hk he.symm
    rw [get?_insert_of_ne d v hk, get?_eq_some_iff hd]
    simp [hk']

theorem mem_erase {d : List (κ × ν)} {k : κ} {p : κ × ν} :
    p ∈ erase d k ↔ p.1 ≠ k ∧ p ∈ d := by
  simp [erase, and_comm]

theorem nodup_keys_erase {d : List (κ × ν)} (h : (keys d).Nodup) (k : κ) :
    (keys (erase d k)).Nodup := by
  rw [keys_erase]
  exact h.filter _

/-- What is read off each pair stays, if it is the same of the new value as of the old one. -/
theorem map_insert_of_get? {α : Type} {f : κ × ν → α} {d : List (κ × ν)} {k : κ} {u v : ν}
    (h : get? d k = some u) (hf : f (k, v) = f (k, u)) : (insert d k v).map f = d.map f := by
  induction d with
  | nil => cases h
  | cons p d ih =>
    obtain ⟨k', u'⟩ := p
    by_cases hk : k' = k
    · subst hk
      simp only [get?, if_true, Option.some.injEq] at h
      simp [insert, hf, h]
    · simp only [get?, if_neg hk] at h
      simp [insert, hk, ih h]

/-! ## Other keys and values -/

section

variable {κ' ν' : Type} [DecidableEq κ'] {f : κ → κ'} (hf : Function.Injective f) (g : ν → ν')
  (d : List (κ × ν))

include hf

theorem get?_map (k : κ) : get? (d.map (Prod.map f g)) (f k) = (get? d k).map g := by
  induction d with
  | nil => rfl
  | cons p d ih =>
    simp only [List.map_cons, Prod.map, get?, hf.eq_iff]
    split
    · rfl
    · exact ih

theorem insert_map (k : κ) (v : ν) :
    insert (d.map (Prod.map f g)) (f k) (g v) = (insert d k v).map (Prod.map f g) := by
  induction d with
  | nil => rfl
  | cons p d ih =>
    simp only [List.map_cons, Prod.map, insert, hf.eq_iff]
    split
    · rfl
    · exact congrArg _ ih

theorem erase_map (k : κ) :
    erase (d.map (Prod.map f g)) (f k) = (erase d k).map (Prod.map f g) := by
  rw [erase, erase, List.filter_map]
  congr 1
  refine List.filter_congr fun p _ => ?_
  simp [hf.eq_iff]

end

/-! ## Many writes -/

theorem get?_append (d e : List (κ × ν)) (k : κ) :
    get? (d ++ e) k = (get? d k).or (get? e k) := by
  induction d with
  | nil => rfl
  | cons p d ih =>
    by_cases hk : p.1 = k
    · simp [get?, hk]
    · simpa [get?, hk] using ih

/-- Of several values written under one key the last one is found. -/
theorem get?_insertAll (d pairs : List (κ × ν)) (k : κ) :
    get? (insertAll d pairs) k = (get? pairs.reverse k).or (get? d k) := by
  induction pairs generalizing d with
  | nil => rfl
  | cons p pairs ih =>
    rw [insertAll, List.foldl_cons, ← insertAll, ih, List.reverse_cons, get?_append, Option.or_assoc]
    congr 1
    by_cases hk : p.1 = k
    · simp [hk, get?]
    · simp [hk, get?, get?_insert_of_ne]

/-- Keys stand in the order in which they first came. -/
theorem keys_insertAll (pairs : List (κ × ν)) :
    keys (insertAll [] pairs) = (keys pairs).eraseDups := by
  induction pairs using List.reverseRecOn with
  | nil => rfl
  | append_singleton pairs p ih =>
    have hlast : insertAll [] (pairs ++ [p]) = insert (insertAll [] pairs) p.1 p.2 := by
      rw [insertAll, List.foldl_append]
      rfl
    have hkeys : keys (pairs ++ [p]) = keys pairs ++ [p.1] := by
      rw [keys, List.map_append]
      rfl
    rw [hlast, hkeys, keys_insert, ih, List.eraseDups_append]
    by_cases hp : p.1 ∈ keys pairs
    · simp [List.removeAll, hp]
    · simp [List.removeAll, hp, List.eraseDups_cons]

theorem nodup_keys_insertAll_of_nodup {d : List (κ × ν)} (hd : (keys d).Nodup)
    (pairs : List (κ × ν)) : (keys (insertAll d pairs)).Nodup := by
  induction pairs generalizing d with
  | nil => exact hd
  | cons p pairs ih => exact ih (nodup_keys_insert hd _ _)

theorem nodup_keys_insertAll (pairs : List (κ × ν)) : (keys (insertAll [] pairs)).Nodup :=
  nodup_keys_insertAll_of_nodup (d := []) .nil pairs

/-- Distinct new keys go to the end together. -/
theorem insertAll_eq_append {d pairs : List (κ × ν)} (hp : (keys pairs).Nodup)
    (hd : ∀ k ∈ keys pairs, k ∉ keys d) : insertAll d pairs = d ++ pairs := by
  induction pairs generalizing d with
  | nil => simp [insertAll]
  | cons p pairs ih =>
    rw [keys_cons, List.nodup_cons] at hp
    have hnew : p.1 ∉ keys d := hd p.1 (by simp)
    have hrest : ∀ k ∈ keys pairs, k ∉ keys (d ++ [p]) := by
      intro k hk hmem
      rw [keys, List.map_append, List.mem_append, List.map_singleton, List.mem_singleton] at hmem
      rcases hmem with hmem | he
      · exact hd k (by simp [hk]) hmem
      · exact hp.1 (he ▸ hk)
    rw [insertAll, List.foldl_cons, ← insertAll, insert_of_notMem hnew, ih hp.2 hrest,
      List.append_assoc, List.singleton_append]

/-- Of several values added under one key the first one is found. -/
theorem get?_addMissing (d pairs : List (κ × ν)) (k : κ) :
    get? (addMissing d pairs) k = (get? d k).or (get? pairs k) := by
  induction pairs generalizing d with
  | nil => simp [addMissing]
  | cons p pairs ih =>
    rw [addMissing, List.foldl_cons, ← addMissing, ih]
    by_cases hk : p.1 = k
    · cases hd : get? d k <;> simp [contains, get?, get?_append, hk, hd]
    · cases hd : get? d p.1 <;> simp [contains, get?, get?_append, hk, hd]

theorem nodup_keys_addMissing {d : List (κ × ν)} (hd : (keys d).Nodup) (pairs : List (κ × ν)) :
    (keys (addMissing d pairs)).Nodup := by
  induction pairs generalizing d with
  | nil => exact hd
  | cons p pairs ih =>
    rw [addMissing, List.foldl_cons, ← addMissing]
    split
    · exact ih hd
    · next hp =>
      have hnew : p.1 ∉ keys d := by
        rwa [contains, isSome_get?_iff] at hp
      refine ih ?_
      rw [← insert_of_notMem hnew]
      exact nodup_keys_insert hd _ _

theorem addMissing_eq_append {d pairs : List (κ × ν)} (hp : (keys pairs).Nodup)
    (hd : ∀ k ∈ keys pairs, k ∉ keys d) : addMissing d pairs = d ++ pairs := by
  induction pairs generalizing d with
  | nil => simp [addMissing]
  | cons p pairs ih =>
    rw [keys_cons, List.nodup_cons] at hp
    have hnew : contains d p.1 = false := by
      rw [contains, get?_eq_none_iff.2 (hd p.1 (by simp))]
      rfl
    have hrest : ∀ k ∈ keys pairs, k ∉ keys (d ++ [p]) := by
      intro k hk hmem
      rw [keys, List.map_append, List.mem_append, List.map_singleton, List.mem_singleton] at hmem
      rcases hmem with hmem | he
      · exact hd k (by simp [hk]) hmem
      · exact hp.1 (he ▸ hk)
    rw [addMissing, List.foldl_cons, ← addMissing, hnew, if_neg Bool.false_ne_true, ih hp.2 hrest,
      List.append_assoc, List.singleton_append]

end DesignTokens.Dict
