/-
Lists, whatever they hold: what the first item with a result gives, when one item
alone can be found, and lists made or compared item by item.
-/
import Mathlib.Data.List.Forall2
import Mathlib.Logic.Equiv.Fintype

namespace DesignTokens

variable {α β γ : Type}

/-! ## The first result -/

theorem findSome?_flatMap {f : β → Option γ} {g : α → List β} {l : List α} :
    (l.flatMap g).findSome? f = l.findSome? fun a => (g a).findSome? f := by
  rw [← List.head?_filterMap, List.filterMap_flatMap, List.head?_flatMap]
  simp only [List.head?_filterMap]

theorem findSome?_congr {f g : α → Option β} {l : List α} (h : ∀ a ∈ l, f a = g a) :
    l.findSome? f = l.findSome? g := by
  rw [← List.head?_filterMap, List.filterMap_congr h, List.head?_filterMap]

/-- If one item of a list alone gives a result, its place in the list does not matter. -/
theorem findSome?_eq_of_perm {f : α → Option β} {l l' : List α} (h : l.Perm l')
    (hu : ∀ a ∈ l, ∀ b ∈ l, (f a).isSome → (f b).isSome → a = b) :
    l.findSome? f = l'.findSome? f := by
  induction h with
  | nil => rfl
  | cons a _ ih =>
    rw [List.findSome?_cons, List.findSome?_cons, ih fun a ha b hb =>
      hu a (List.mem_cons_of_mem _ ha) b (List.mem_cons_of_mem _ hb)]
  | swap a b l =>
    simp only [List.findSome?_cons]
    cases ha : f a with
    | none => rfl
    | some x =>
      cases hb : f b with
      | none => rfl
      | some y =>
        have hab : a = b := hu a (by simp) b (by simp) (by rw [ha]; rfl) (by rw [hb]; rfl)
        rw [hab] at ha
        exact hb.symm.trans ha
  | trans h₁ _ ih₁ ih₂ =>
    exact (ih₁ hu).trans (ih₂ fun a ha b hb => hu a (h₁.mem_iff.2 ha) b (h₁.mem_iff.2 hb))

/-- The only item of a list to fulfil a condition is found. -/
theorem find?_eq_some_iff_of_unique {l : List α} {q : α → Bool}
    (hu : ∀ a ∈ l, ∀ b ∈ l, q a → q b → a = b) {a : α} :
    l.find? q = some a ↔ a ∈ l ∧ q a := by
  constructor
  · intro h
    exact ⟨List.mem_of_find?_eq_some h, List.find?_some h⟩
  · rintro ⟨ha, hq⟩
    cases hf : l.find? q with
    | none => exact absurd hq (List.find?_eq_none.1 hf a ha)
    | some b => rw [hu b (List.mem_of_find?_eq_some hf) a ha (List.find?_some hf) hq]

/-! ## Item by item -/

section

variable {m : Type → Type} [Monad m] [LawfulMonad m]

theorem mapM_pure_eq (l : List α) : l.mapM (pure : α → m α) = pure l := by
  simpa using List.mapM_pure (m := m) (l := l) (f := id)

/-- An action on each item that does nothing but give a value makes the list of the values. -/
theorem mapM_eq_pure_map {f : α → m β} {g : α → β} {l : List α}
    (h : ∀ a ∈ l, f a = pure (g a)) : l.mapM f = pure (l.map g) := by
  induction l with
  | nil => exact List.mapM_nil
  | cons a l ih =>
    obtain ⟨ha, hl⟩ := List.forall_mem_cons.1 h
    rw [List.mapM_cons, ha, pure_bind, ih hl, pure_bind, List.map_cons]

end

theorem forall₂_map_of_mem {P : α → β → Prop} {Q : γ → β → Prop} {f : α → γ} {l : List α}
    {l' : List β} (h : List.Forall₂ P l l') (hPQ : ∀ a ∈ l, ∀ b, P a b → Q (f a) b) :
    List.Forall₂ Q (l.map f) l' := by
  have hmem : List.Forall₂ (fun a b => a ∈ l ∧ P a b) l l' :=
    (List.forall₂_and_left l l').2 ⟨fun _ ha => ha, h⟩
  exact List.forall₂_map_left_iff.2 (hmem.imp fun a b hab => hPQ a hab.1 b hab.2)

/-- Some permutation takes one list to another of its length, where neither repeats anything. -/
theorem exists_perm_map {l l' : List α} (h : l.Nodup) (h' : l'.Nodup)
    (hlength : l.length = l'.length) : ∃ σ : Equiv.Perm α, l.map σ = l' := by
  obtain ⟨σ, hσ⟩ := Equiv.Perm.exists_extending_pair l.get _ h.injective_get
    (h'.injective_get.comp (Fin.cast_injective hlength))
  refine ⟨σ, List.ext_getElem (by simpa) fun i hi _ => ?_⟩
  rw [List.length_map] at hi
  rw [List.getElem_map]
  exact hσ ⟨i, hi⟩

/-! ## Lists in order -/

theorem append_lt_append_iff [LT α] [Std.Irrefl (fun a b : α => a < b)] {p x y : List α} :
    p ++ x < p ++ y ↔ x < y := by
  induction p with
  | nil => rfl
  | cons b p ih => simp only [List.cons_append, List.cons_lt_cons_self, ih]

/-- Of two lists of one length, what stands behind them does not change which is less. -/
theorem append_lt_append_of_length_eq [LT α] {a b : List α} (h : a < b)
    (hl : a.length = b.length) (x y : List α) : a ++ x < b ++ y := by
  induction a generalizing b with
  | nil =>
    cases b with
    | nil => cases h
    | cons e b => cases hl
  | cons d a ih =>
    cases b with
    | nil => cases hl
    | cons e b =>
      rw [List.cons_append, List.cons_append, List.cons_lt_cons_iff]
      rcases List.cons_lt_cons_iff.1 h with hd | ⟨he, hab⟩
      · exact .inl hd
      · exact .inr ⟨he, ih hab (Nat.succ.inj hl)⟩

end DesignTokens
