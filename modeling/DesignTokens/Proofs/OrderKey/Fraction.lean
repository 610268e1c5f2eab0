/-
Fractions between fractions. `above` and `between` keep to their bounds and give
fractions again, that is, digits that do not end in zero. That the upper bound
does not end in zero is what leaves room below it: digits followed by nothing
but zeros would be the next ones above a shorter fraction. The lower bound may be
any digits at all, and what is found is at most one digit longer than the bounds.
-/
import DesignTokens.OrderKey.Fraction
import DesignTokens.Proofs.OrderKey.Text

namespace DesignTokens.OrderKey.Fraction

theorem getLast?_cons_ne_zero {d : Digit} {ds : List Digit} (hne : ds ≠ [])
    (h : ds.getLast? ≠ some Digit.zero) : (d :: ds).getLast? ≠ some Digit.zero := by
  rwa [List.getLast?_cons_of_ne_nil hne]

theorem getLast?_singleton_ne_zero {d : Digit} (h : 0 < d.val) :
    [d].getLast? ≠ some Digit.zero := by
  rw [List.getLast?_singleton]
  intro he
  have hv : d.val = 0 := congrArg Fin.val (Option.some.inj he)
  omega

/-! ## Above a fraction -/

theorem above_ne_nil (ds : List Digit) : above ds ≠ [] := by
  cases ds with
  | nil => exact List.cons_ne_nil _ _
  | cons d ds =>
    rw [above]
    split <;> exact List.cons_ne_nil _ _

theorem lt_above (ds : List Digit) : ds < above ds := by
  induction ds with
  | nil => exact List.nil_lt_cons _ _
  | cons d ds ih =>
    rw [above]
    split
    · next hd =>
      have hlt : d.val < (d.val + 62 + 1) / 2 := by omega
      exact List.cons_lt_cons_iff.2 (.inl (Fin.lt_def.2 hlt))
    · exact List.cons_lt_cons_iff.2 (.inr ⟨rfl, ih⟩)

theorem getLast?_above (ds : List Digit) : (above ds).getLast? ≠ some Digit.zero := by
  induction ds with
  | nil => decide
  | cons d ds ih =>
    rw [above]
    split
    · have hpos : 0 < (d.val + 62 + 1) / 2 := by omega
      exact getLast?_singleton_ne_zero hpos
    · exact getLast?_cons_ne_zero (above_ne_nil ds) ih

theorem length_above_le (ds : List Digit) : (above ds).length ≤ ds.length + 1 := by
  induction ds with
  | nil => simp [above]
  | cons d ds ih =>
    rw [above]
    split
    · simp
    · simpa using ih

/-! ## Between two fractions -/

theorem lt_cons_of_headD_lt {a : List Digit} {z : Digit} (h : a.headD Digit.zero < z)
    (t : List Digit) : a < z :: t := by
  cases a with
  | nil => exact List.nil_lt_cons _ _
  | cons x xs => exact List.cons_lt_cons_iff.2 (.inl h)

theorem lt_headD_cons {a t : List Digit} (h : a.tail < t) : a < a.headD Digit.zero :: t := by
  cases a with
  | nil => exact List.nil_lt_cons _ _
  | cons x xs => exact List.cons_lt_cons_iff.2 (.inr ⟨rfl, h⟩)

/-- Below a fraction with a first digit, where a missing digit counts as zero. -/
theorem headD_cases {a ys : List Digit} {y : Digit} (h : a < y :: ys)
    (hb : (y :: ys).getLast? ≠ some Digit.zero) :
    a.headD Digit.zero < y ∨ a.headD Digit.zero = y ∧ a.tail < ys := by
  cases a with
  | cons x xs => exact List.cons_lt_cons_iff.1 h
  | nil =>
    by_cases hy : Digit.zero = y
    · cases ys with
      | nil => exact absurd (congrArg some hy.symm) hb
      | cons z zs => exact .inr ⟨hy, List.nil_lt_cons _ _⟩
    · have hval : 0 ≠ y.val := fun he => hy (Fin.ext he)
      exact .inl (Fin.lt_def.2 (by simp only [List.headD_nil, Digit.zero]; omega))

/-- What `between` gives lies strictly between its bounds, and is a fraction again. -/
theorem between_spec {a b : List Digit} (h : a < b) (hb : b.getLast? ≠ some Digit.zero) :
    a < between a b ∧ between a b < b ∧ between a b ≠ [] ∧
      (between a b).getLast? ≠ some Digit.zero := by
  induction b generalizing a with
  | nil => cases h
  | cons y ys ih =>
    rcases headD_cases h hb with hlt | ⟨he, htail⟩
    · have hval := Fin.lt_def.1 hlt
      have hne : a.headD Digit.zero ≠ y := fun he => by
        rw [he] at hval
        omega
      simp only [between, if_neg hne]
      split
      · -- There is a digit half way.
        next hroom =>
        have habove : (a.headD Digit.zero).val < ((a.headD Digit.zero).val + y.val + 1) / 2 := by
          omega
        have hbelow : ((a.headD Digit.zero).val + y.val + 1) / 2 < y.val := by omega
        exact ⟨lt_cons_of_headD_lt (Fin.lt_def.2 habove) _,
          List.cons_lt_cons_iff.2 (.inl (Fin.lt_def.2 hbelow)), List.cons_ne_nil _ _,
          getLast?_singleton_ne_zero (Nat.lt_of_le_of_lt (Nat.zero_le _) habove)⟩
      · split
        · -- Nothing follows above: stay at the lower digit and go on above what follows there.
          exact ⟨lt_headD_cons (lt_above _), List.cons_lt_cons_iff.2 (.inl hlt),
            List.cons_ne_nil _ _, getLast?_cons_ne_zero (above_ne_nil _) (getLast?_above _)⟩
        · -- Something follows above, so the upper digit alone is below it.
          next hys =>
          refine ⟨lt_cons_of_headD_lt hlt _, List.cons_lt_cons_iff.2 (.inr ⟨rfl, ?_⟩),
            List.cons_ne_nil _ _, getLast?_singleton_ne_zero (by omega)⟩
          cases ys with
          | nil => exact absurd rfl hys
          | cons z zs => exact List.nil_lt_cons _ _
    · have hys : ys ≠ [] := by
        intro hnil
        rw [hnil] at htail
        exact List.not_lt_nil _ htail
      rw [List.getLast?_cons_of_ne_nil hys] at hb
      obtain ⟨hlower, hupper, hne, hlast⟩ := ih htail hb
      simp only [between, if_pos he]
      exact ⟨he ▸ lt_headD_cons hlower, List.cons_lt_cons_iff.2 (.inr ⟨rfl, hupper⟩),
        List.cons_ne_nil _ _, getLast?_cons_ne_zero hne hlast⟩

theorem length_between_le (a b : List Digit) :
    (between a b).length ≤ max a.length b.length + 1 := by
  induction b generalizing a with
  | nil => simpa [between] using length_above_le a
  | cons y ys ih =>
    have htail : a.tail.length = a.length - 1 := List.length_tail
    simp only [between]
    split
    · have hrest := ih a.tail
      simp only [List.length_cons]
      omega
    split
    · simp
    split
    · have hrest := length_above_le a.tail
      simp only [List.length_cons]
      omega
    · simp

/-! ## The fraction that is found -/

/-- A fraction above some digits, and below others where these are given, in the order of bytes.
It is no more than one digit longer than they are. -/
structure Found (lower : List Digit) (upper : Option (List Digit)) (m : List Digit) : Prop where
  ne_nil : m ≠ []
  getLast?_ne : m.getLast? ≠ some Digit.zero
  above : Text.BytesLt (Digit.text lower) (Digit.text m)
  below : ∀ b ∈ upper, Text.BytesLt (Digit.text m) (Digit.text b)
  length_le : m.length ≤ max lower.length (upper.elim 0 List.length) + 1

/--
**A fraction between any two.** Above any digits there is a fraction, and there is
one between any digits and a fraction above them: it has a digit, does not end in
zero, lies strictly between its bounds in the order of bytes, and is at most one
digit longer than they are.
-/
theorem fraction_correct (a : List Digit) :
    Found a none (above a) ∧
    ∀ b, b.getLast? ≠ some Digit.zero → Text.BytesLt (Digit.text a) (Digit.text b) →
      Found a (some b) (between a b) := by
  refine ⟨⟨above_ne_nil a, getLast?_above a, Digit.bytesLt_text_iff.2 (lt_above a), nofun, ?_⟩, ?_⟩
  · simpa using length_above_le a
  · intro b hb hab
    obtain ⟨hlower, hupper, hne, hlast⟩ := between_spec (Digit.bytesLt_text_iff.1 hab) hb
    refine ⟨hne, hlast, Digit.bytesLt_text_iff.2 hlower, ?_, length_between_le a b⟩
    rintro _ ⟨⟩
    exact Digit.bytesLt_text_iff.2 hupper

/-- The lower bound runs out before the upper one, and in the end the two are neighbours. -/
theorem fraction_correct_padded :
    Digit.text [3] = "3" ∧ Digit.text [3, 0, 0, 1] = "3001" ∧
      between [3] [3, 0, 0, 1] = [3, 0, 0, 0, 31] ∧ Digit.text [3, 0, 0, 0, 31] = "3000V" ∧
      [3, 0, 0, 1].getLast? ≠ some Digit.zero ∧
      Text.BytesLt (Digit.text [3]) (Digit.text [3, 0, 0, 1]) ∧
      Found [3] (some [3, 0, 0, 1]) [3, 0, 0, 0, 31] := by
  have hlast : [3, 0, 0, 1].getLast? ≠ some Digit.zero := by decide
  have hlt : Text.BytesLt (Digit.text [3]) (Digit.text [3, 0, 0, 1]) :=
    Digit.bytesLt_text_iff.2 (by decide)
  have hbetween : between [3] [3, 0, 0, 1] = [3, 0, 0, 0, 31] := by decide
  have hfound := (fraction_correct [3]).2 [3, 0, 0, 1] hlast hlt
  rw [hbetween] at hfound
  exact ⟨by decide, by decide, hbetween, by decide, hlast, hlt, hfound⟩

end DesignTokens.OrderKey.Fraction
