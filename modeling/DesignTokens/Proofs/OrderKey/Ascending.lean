/-
Several keys at once. Each step gives one key between the bounds that it is asked
for, and parts the keys that come before it from those that come behind
(`AscendWithin.pivot`). That holds of all three ways in which `keysWithin` goes:
up from the lower bound, down from the upper one, or from the middle of both. So
whatever it gives are as many keys as were asked for, in order and between the
bounds.

It does give them where each key that it finds may be a bound in turn, which is
so on the way up and in the middle. On the way down it may come upon the floor.
-/
import DesignTokens.OrderKey.Sequence
import DesignTokens.Proofs.OrderKey.Between
import DesignTokens.Proofs.Outcome

namespace DesignTokens.OrderKey

/-- Keys that ascend in the order of bytes, all above the one bound and below the other, as far
as these are given. -/
structure AscendWithin (lower upper : Option String) (keys : List String) : Prop where
  above : ∀ a ∈ lower, ∀ k ∈ keys, Text.BytesLt a k
  below : ∀ b ∈ upper, ∀ k ∈ keys, Text.BytesLt k b
  ascending : keys.Pairwise Text.BytesLt

/-! ## One key -/

theorem bytesLt_trans {a b c : String} (hab : Text.BytesLt a b) (hbc : Text.BytesLt b c) :
    Text.BytesLt a c :=
  List.lt_trans hab hbc

section

variable {lower upper : Option String}

theorem bounds_of_keyWithin {k : String} (h : keyWithin lower upper = .ok k) :
    (∀ a ∈ lower, Text.BytesLt a k) ∧ ∀ b ∈ upper, Text.BytesLt k b := by
  have hfree : ∀ e, ¬ Refused lower upper e := by
    intro e he
    rw [keyWithin_of_refused he] at h
    cases h
  obtain ⟨a, b, rfl, rfl, ha, hb, hab⟩ := exists_keys_of_not_refused hfree
  obtain ⟨key, hkey, ⟨hak, hkb⟩, -, -⟩ := between?_spec ha hb hab
  rw [keyWithin_text ha hb, hkey] at h
  cases h
  exact ⟨by simpa [bytesLt_text_iff] using hak, by simpa [bytesLt_text_iff] using hkb⟩

/-- Unless it lies below everything, a key that is found may be a bound in turn. -/
theorem exists_accepted (h : ∀ e, ¬ Refused lower upper e) (hopen : lower = none → upper = none) :
    ∃ k, keyWithin lower upper = .ok k ∧ Accepted k := by
  obtain ⟨a, b, rfl, rfl, ha, hb, hab⟩ := exists_keys_of_not_refused h
  obtain ⟨key, hkey, -, hwf, hvalid⟩ := between?_spec ha hb hab
  refine ⟨key.text, by rw [keyWithin_text ha hb, hkey]; rfl, (accepted_text_iff hwf).2 (hvalid.2 ?_)⟩
  rintro ⟨rfl, rfl⟩
  cases hopen rfl

theorem exists_above (h : ∀ a ∈ lower, Accepted a) :
    ∃ k, keyWithin lower none = .ok k ∧ Accepted k := by
  refine exists_accepted (fun e he => ?_) fun _ => rfl
  cases he with
  | lower hs => exact hs (h _ rfl)

theorem exists_between {a b : String} (ha : Accepted a) (hb : Accepted b)
    (hab : Text.BytesLt a b) : ∃ k, keyWithin (some a) (some b) = .ok k ∧ Accepted k := by
  refine exists_accepted (fun e he => ?_) nofun
  cases he with
  | lower hs => exact hs ha
  | upper _ hs => exact hs hb
  | disordered _ _ hs => exact hs hab

/-! ## The keys that are given -/

theorem ascendWithin_nil : AscendWithin lower upper [] := ⟨by simp, by simp, .nil⟩

/-- A key between the bounds, with keys on both sides of it. -/
theorem AscendWithin.pivot {k : String} {before after : List String}
    (hbefore : AscendWithin lower (some k) before) (hk : keyWithin lower upper = .ok k)
    (hafter : AscendWithin (some k) upper after) :
    AscendWithin lower upper (before ++ k :: after) := by
  obtain ⟨hlower, hupper⟩ := bounds_of_keyWithin hk
  have hfront : ∀ x ∈ before, Text.BytesLt x k := hbefore.below k rfl
  have hback : ∀ y ∈ after, Text.BytesLt k y := hafter.above k rfl
  refine ⟨fun a ha x hx => ?_, fun b hb x hx => ?_, ?_⟩
  · rw [List.mem_append, List.mem_cons] at hx
    rcases hx with hx | rfl | hx
    · exact hbefore.above a ha x hx
    · exact hlower a ha
    · exact bytesLt_trans (hlower a ha) (hback x hx)
  · rw [List.mem_append, List.mem_cons] at hx
    rcases hx with hx | rfl | hx
    · exact bytesLt_trans (hfront x hx) (hupper b hb)
    · exact hupper b hb
    · exact hafter.below b hb x hx
  · refine List.pairwise_append.2
      ⟨hbefore.ascending, List.pairwise_cons.2 ⟨hback, hafter.ascending⟩, fun x hx y hy => ?_⟩
    rcases List.mem_cons.1 hy with rfl | hy
    · exact hfront x hx
    · exact bytesLt_trans (hfront x hx) (hback y hy)

end

theorem of_ascending {lower : Option String} {n : Nat} {keys : List String}
    (h : ascending lower n = .ok keys) : keys.length = n ∧ AscendWithin lower none keys := by
  induction n generalizing lower keys with
  | zero =>
    cases h
    exact ⟨rfl, ascendWithin_nil⟩
  | succ n ih =>
    simp only [ascending, Outcome.bind_eq_ok_iff, Outcome.pure_eq_ok_iff] at h
    obtain ⟨k, hk, ks, hks, rfl⟩ := h
    obtain ⟨hlength, hafter⟩ := ih hks
    have hbefore : AscendWithin lower (some k) [] := ascendWithin_nil
    exact ⟨by rw [List.length_cons, hlength], hbefore.pivot hk hafter⟩

theorem of_descending {upper : Option String} {n : Nat} {keys : List String}
    (h : descending upper n = .ok keys) : keys.length = n ∧ AscendWithin none upper keys := by
  induction n generalizing upper keys with
  | zero =>
    cases h
    exact ⟨rfl, ascendWithin_nil⟩
  | succ n ih =>
    simp only [descending, Outcome.bind_eq_ok_iff, Outcome.pure_eq_ok_iff] at h
    obtain ⟨k, hk, ks, hks, rfl⟩ := h
    obtain ⟨hlength, hbefore⟩ := ih hks
    exact ⟨by rw [List.length_append, hlength, List.length_singleton],
      hbefore.pivot hk ascendWithin_nil⟩

theorem of_bisecting {lower upper : String} {n : Nat} {keys : List String}
    (h : bisecting lower upper n = .ok keys) :
    keys.length = n ∧ AscendWithin (some lower) (some upper) keys := by
  match n with
  | 0 =>
    rw [bisecting] at h
    cases h
    exact ⟨rfl, ascendWithin_nil⟩
  | n + 1 =>
    simp only [bisecting, Outcome.bind_eq_ok_iff, Outcome.pure_eq_ok_iff] at h
    obtain ⟨k, hk, before, hbefore, after, hafter, rfl⟩ := h
    obtain ⟨hfront, hbefore⟩ := of_bisecting hbefore
    obtain ⟨hback, hafter⟩ := of_bisecting hafter
    refine ⟨?_, hbefore.pivot hk hafter⟩
    rw [List.length_append, List.length_cons, hfront, hback]
    omega

theorem of_keysWithin {lower upper : Option String} {n : Nat} {keys : List String}
    (h : keysWithin lower upper n = .ok keys) :
    keys.length = n ∧ AscendWithin lower upper keys := by
  cases upper with
  | none => exact of_ascending h
  | some b =>
    cases lower with
    | none => exact of_descending h
    | some a => exact of_bisecting h

/-! ## When they are given -/

theorem exists_ascending {lower : Option String} (h : ∀ a ∈ lower, Accepted a) (n : Nat) :
    ∃ keys, ascending lower n = .ok keys ∧ ∀ k ∈ keys, Accepted k := by
  induction n generalizing lower with
  | zero => exact ⟨[], rfl, by simp⟩
  | succ n ih =>
    obtain ⟨k, hk, haccepted⟩ := exists_above h
    have hbound : ∀ a ∈ some k, Accepted a := by simpa using haccepted
    obtain ⟨ks, hks, hrest⟩ := ih hbound
    refine ⟨k :: ks, ?_, List.forall_mem_cons.2 ⟨haccepted, hrest⟩⟩
    simp only [ascending, hk, hks, bind, Except.bind, pure, Except.pure]

theorem exists_bisecting {lower upper : String} (hl : Accepted lower) (hu : Accepted upper)
    (h : Text.BytesLt lower upper) (n : Nat) : ∃ keys, bisecting lower upper n = .ok keys := by
  match n with
  | 0 => exact ⟨[], by rw [bisecting]⟩
  | n + 1 =>
    obtain ⟨k, hk, haccepted⟩ := exists_between hl hu h
    obtain ⟨hlower, hupper⟩ := bounds_of_keyWithin hk
    obtain ⟨before, hbefore⟩ := exists_bisecting hl haccepted (hlower lower rfl) ((n + 1) / 2)
    obtain ⟨after, hafter⟩ :=
      exists_bisecting haccepted hu (hupper upper rfl) (n - (n + 1) / 2)
    refine ⟨before ++ k :: after, ?_⟩
    simp only [bisecting, hk, hbefore, hafter, bind, Except.bind, pure, Except.pure]

/--
**As many keys as are asked for.** Whatever the bounds, the keys that are given
are as many as were asked for and ascend strictly between the bounds. They are
given above any bound that is accepted, or with no bound at all, and between any
two accepted bounds that ascend.
-/
theorem keysWithin_correct (lower upper : Option String) (n : Nat) :
    (∀ keys, keysWithin lower upper n = .ok keys →
      keys.length = n ∧ AscendWithin lower upper keys) ∧
    (upper = none → (∀ a ∈ lower, Accepted a) → ∃ keys, keysWithin lower upper n = .ok keys) ∧
    ∀ a b, lower = some a → upper = some b → Accepted a → Accepted b → Text.BytesLt a b →
      ∃ keys, keysWithin lower upper n = .ok keys := by
  refine ⟨fun keys h => of_keysWithin h, ?_, ?_⟩
  · rintro rfl haccepted
    obtain ⟨keys, hkeys, -⟩ := exists_ascending haccepted n
    exact ⟨keys, hkeys⟩
  · rintro a b rfl rfl ha hb hab
    exact exists_bisecting ha hb hab n

/-- Two integer parts that follow each other under different heads: fractions stand between them. -/
theorem keysWithin_between_heads :
    Accepted "Zz" ∧ Accepted "a0" ∧ Text.BytesLt "Zz" "a0" ∧
      keysWithin (some "Zz") (some "a0") 4 = .ok ["Zz8", "ZzG", "ZzV", "Zzl"] ∧
      AscendWithin (some "Zz") (some "a0") ["Zz8", "ZzG", "ZzV", "Zzl"] := by
  have hlower : Accepted "Zz" := ⟨_, rfl⟩
  have hupper : Accepted "a0" := ⟨_, rfl⟩
  have hlt : Text.BytesLt "Zz" "a0" := Text.bytesLt_iff.2 (by decide)
  have hkeys : keysWithin (some "Zz") (some "a0") 4 = .ok ["Zz8", "ZzG", "ZzV", "Zzl"] := by
    decide +kernel
  obtain ⟨hcorrect, -, hgiven⟩ := keysWithin_correct (some "Zz") (some "a0") 4
  obtain ⟨keys, hfound⟩ := hgiven "Zz" "a0" rfl rfl hlower hupper hlt
  have he : keys = ["Zz8", "ZzG", "ZzV", "Zzl"] := Except.ok.inj (hfound.symm.trans hkeys)
  exact ⟨hlower, hupper, hlt, hkeys, he ▸ (hcorrect keys hfound).2⟩

/-! ## Keys for siblings -/

theorem exists_initial (n : Nat) :
    keysWithin none none n = .ok (initial n) ∧ ∀ k ∈ initial n, Accepted k := by
  have hopen : ∀ a ∈ (none : Option String), Accepted a := nofun
  obtain ⟨keys, hkeys, haccepted⟩ := exists_ascending hopen n
  have hgiven : keysWithin none none n = .ok keys := hkeys
  have hinitial : initial n = keys := by rw [initial, hgiven]
  exact hinitial ▸ ⟨hgiven, haccepted⟩

theorem keysWithin_eq_initial (n : Nat) : keysWithin none none n = .ok (initial n) :=
  (exists_initial n).1

/-- Each of the keys that are given at once may be given as a bound. -/
theorem accepted_of_mem_initial {n : Nat} {k : String} (h : k ∈ initial n) : Accepted k :=
  (exists_initial n).2 k h

/-- There is a key for each of `n` siblings. -/
@[simp] theorem length_initial (n : Nat) : (initial n).length = n :=
  (of_keysWithin (keysWithin_eq_initial n)).1

/-- The keys that are given at once ascend. -/
theorem pairwise_initial (n : Nat) : (initial n).Pairwise (· < ·) :=
  (of_keysWithin (keysWithin_eq_initial n)).2.ascending.imp Text.bytesLt_iff.1

theorem map_fst_zip_initial {α : Type} (siblings : List α) :
    ((initial siblings.length).zip siblings).map Prod.fst = initial siblings.length :=
  List.map_fst_zip (Nat.le_of_eq (length_initial _))

theorem map_snd_zip_initial {α : Type} (siblings : List α) :
    ((initial siblings.length).zip siblings).map Prod.snd = siblings :=
  List.map_snd_zip (Nat.le_of_eq (length_initial _).symm)

end DesignTokens.OrderKey
