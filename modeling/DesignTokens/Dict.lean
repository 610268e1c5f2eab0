/-
Dictionaries that remember the order in which their keys first came: lists of
key and value pairs. Writing under a key that is present replaces the value
where it stands; a new key goes to the end. The members of a JSON object, the
writes of a batch and the nodes of a store are all kept this way, because the
order of keys shows in every answer.

The lemmas say what each operation does to the two views of a dictionary: the
value found under a key (`get?`) and the list of keys in order (`keys`).
-/

namespace DesignTokens.Dict

variable {κ ν : Type}

/-- The keys, in order. -/
def keys (d : List (κ × ν)) : List κ := d.map Prod.fst

@[simp] theorem keys_nil : keys ([] : List (κ × ν)) = [] := rfl

@[simp] theorem keys_cons (p : κ × ν) (d : List (κ × ν)) : keys (p :: d) = p.1 :: keys d := rfl

variable [DecidableEq κ]

/-- The value under a key. -/
def get? : List (κ × ν) → κ → Option ν
  | [], _ => none
  | (k', v) :: d, k => if k' = k then some v else get? d k

/-- Whether a key is present. -/
def contains (d : List (κ × ν)) (k : κ) : Bool := (get? d k).isSome

/-- Writes a value under a key: in place if the key is present, at the end if not. -/
def insert : List (κ × ν) → κ → ν → List (κ × ν)
  | [], k, v => [(k, v)]
  | (k', v') :: d, k, v => if k' = k then (k, v) :: d else (k', v') :: insert d k v

/-- Removes a key; the others keep their order. -/
def erase (d : List (κ × ν)) (k : κ) : List (κ × ν) := d.filter (·.1 ≠ k)

/-- Writes every pair of a list, the first one first. -/
def insertAll (d pairs : List (κ × ν)) : List (κ × ν) :=
  pairs.foldl (fun d p => insert d p.1 p.2) d

/-- Adds the pairs whose keys are new; of several under one key the first is kept. -/
def addMissing (d pairs : List (κ × ν)) : List (κ × ν) :=
  pairs.foldl (fun d p => if contains d p.1 then d else d ++ [p]) d

@[simp] theorem get?_nil (k : κ) : get? ([] : List (κ × ν)) k = none := rfl

theorem mem_keys_of_get? {d : List (κ × ν)} {k : κ} {v : ν} (h : get? d k = some v) :
    k ∈ keys d := by
  induction d with
  | nil => simp at h
  | cons p d ih =>
    by_cases hk : p.1 = k
    · simp [hk]
    · simp only [get?, if_neg hk] at h
      simp [ih h]

theorem mem_of_get? {d : List (κ × ν)} {k : κ} {v : ν} (h : get? d k = some v) : (k, v) ∈ d := by
  induction d with
  | nil => simp at h
  | cons p d ih =>
    obtain ⟨k', v'⟩ := p
    by_cases hk : k' = k
    · simp only [get?, if_pos hk, Option.some.injEq] at h
      simp [hk, h]
    · simp only [get?, if_neg hk] at h
      simp [ih h]

@[simp] theorem get?_insert_self (d : List (κ × ν)) (k : κ) (v : ν) :
    get? (insert d k v) k = some v := by
  induction d with
  | nil => simp [insert, get?]
  | cons p d ih =>
    by_cases hk : p.1 = k
    · simp [insert, get?, hk]
    · simp [insert, get?, hk, ih]

theorem get?_insert_of_ne (d : List (κ × ν)) {k k' : κ} (v : ν) (h : k ≠ k') :
    get? (insert d k v) k' = get? d k' := by
  induction d with
  | nil => simp [insert, get?, h]
  | cons p d ih =>
    by_cases hk : p.1 = k
    · have hne : p.1 ≠ k' := fun he => h (hk ▸ he)
      simp [insert, get?, hk, h]
    · simp [insert, get?, hk, ih]

@[simp] theorem get?_erase_self (d : List (κ × ν)) (k : κ) : get? (erase d k) k = none := by
  induction d with
  | nil => rfl
  | cons p d ih =>
    by_cases hk : p.1 = k
    · simpa [erase, hk] using ih
    · simpa [erase, get?, hk] using ih

theorem get?_erase_of_ne (d : List (κ × ν)) {k k' : κ} (h : k ≠ k') :
    get? (erase d k) k' = get? d k' := by
  induction d with
  | nil => rfl
  | cons p d ih =>
    by_cases hk : p.1 = k
    · have hne : p.1 ≠ k' := fun he => h (hk ▸ he)
      simpa [erase, get?, hk, h] using ih
    · by_cases hk' : p.1 = k'
      · have : k' ≠ k := fun he => h he.symm
        simp [erase, get?, hk', this]
      · simpa [erase, get?, hk, hk'] using ih

/-- A write under a present key keeps the keys; under a new key it adds that key at the end. -/
theorem keys_insert (d : List (κ × ν)) (k : κ) (v : ν) :
    keys (insert d k v) = if k ∈ keys d then keys d else keys d ++ [k] := by
  induction d with
  | nil => simp [insert]
  | cons p d ih =>
    by_cases hk : p.1 = k
    · simp [insert, hk]
    · have hk' : k ≠ p.1 := fun he => hk he.symm
      simp only [insert, if_neg hk, keys_cons, ih, List.mem_cons, hk', false_or]
      split <;> simp

theorem keys_erase (d : List (κ × ν)) (k : κ) : keys (erase d k) = (keys d).filter (· ≠ k) := by
  induction d with
  | nil => rfl
  | cons p d ih =>
    by_cases hk : p.1 = k
    · simpa [erase, hk] using ih
    · simpa [erase, hk] using ih

theorem nodup_keys_insert {d : List (κ × ν)} (h : (keys d).Nodup) (k : κ) (v : ν) :
    (keys (insert d k v)).Nodup := by
  rw [keys_insert]
  split
  · exact h
  · rename_i hk
    rw [List.nodup_append]
    exact ⟨h, by simp, fun a ha b hb => by simp at hb; exact hb ▸ fun he => hk (he ▸ ha)⟩

end DesignTokens.Dict
