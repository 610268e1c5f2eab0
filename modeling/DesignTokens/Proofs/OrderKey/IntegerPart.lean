/-
Integer parts in order. They compare as their digits do; since the head says how
many digits follow, two of them differ before either ends, and nothing that is
written behind them changes how they compare (`append_lt_append`).

`succ?` and `pred?` go one way and back: what `pred?` gives has the integer part
it came from as its `succ?`. So it is enough to show that `succ?` goes up, and by
no more than one step: nothing well formed lies between (`not_lt_of_succ?_eq_some`).
Two integer parts without another one between them determine each other, so `succ?`
and `pred?` find all of these and nothing else.
-/
import Mathlib.Data.List.Lex
import DesignTokens.OrderKey.IntegerPart
import DesignTokens.Proofs.List
import DesignTokens.Proofs.OrderKey.Text

namespace DesignTokens.OrderKey

/-! ## Lists of digits -/

/-- Digits between two lists with the same first digit have that digit first as well. -/
theorem of_cons_between {d f : Digit} {ds es fs : List Digit} (h : d :: ds < f :: fs)
    (h' : f :: fs < d :: es) : d = f ∧ ds < fs ∧ fs < es := by
  rw [List.cons_lt_cons_iff] at h h'
  rcases h with hdf | ⟨rfl, hds⟩
  · rcases h' with hfd | ⟨rfl, -⟩
    · exact absurd hfd (Nat.lt_asymm hdf)
    · exact absurd hdf (Nat.lt_irrefl _)
  · rcases h' with hdd | ⟨-, hfs⟩
    · exact absurd hdd (Nat.lt_irrefl _)
    · exact ⟨rfl, hds, hfs⟩

/-- No digit comes between two that follow each other. -/
theorem of_cons_between_next {d e f : Digit} {ds es fs : List Digit} (he : e.val = d.val + 1)
    (h : d :: ds < f :: fs) (h' : f :: fs < e :: es) : d = f ∧ ds < fs ∨ f = e ∧ fs < es := by
  rw [List.cons_lt_cons_iff] at h h'
  rcases h with hdf | hsame
  · rcases h' with hfe | hsame
    · have hd := Fin.lt_def.1 hdf
      have hf := Fin.lt_def.1 hfe
      omega
    · exact .inr hsame
  · exact .inl hsame

theorem not_lt_map_zero (ds es : List Digit) (h : ds.length = es.length) :
    ¬ ds < es.map fun _ => Digit.zero := by
  induction es generalizing ds with
  | nil => simp
  | cons e es ih =>
    cases ds with
    | nil => cases h
    | cons d ds =>
      rw [List.map_cons, List.cons_lt_cons_iff]
      rintro (hd | ⟨-, hds⟩)
      · exact Nat.not_lt_zero _ (Fin.lt_def.1 hd)
      · exact ih ds (Nat.succ.inj h) hds

theorem not_map_last_lt (ds es : List Digit) (h : ds.length = es.length) :
    ¬ (es.map fun _ => Digit.last) < ds := by
  induction es generalizing ds with
  | nil =>
    cases ds with
    | nil => simp
    | cons d ds => cases h
  | cons e es ih =>
    cases ds with
    | nil => cases h
    | cons d ds =>
      rw [List.map_cons, List.cons_lt_cons_iff]
      rintro (hd | ⟨-, hds⟩)
      · have hlt : 61 < d.val := Fin.lt_def.1 hd
        omega
      · exact ih ds (Nat.succ.inj h) hds

namespace IntegerPart

/-! ## Counting -/

theorem lt_of_countUp? {ds es : List Digit} (h : countUp? ds = some es) :
    es.length = ds.length ∧ ds < es := by
  induction ds generalizing es with
  | nil => cases h
  | cons d ds ih =>
    simp only [countUp?] at h
    split at h
    · next fs hfs =>
      cases h
      obtain ⟨hlength, hlt⟩ := ih hfs
      exact ⟨by simp [hlength], List.cons_lt_cons_iff.2 (.inr ⟨rfl, hlt⟩)⟩
    · split at h
      · next hd =>
        cases h
        exact ⟨by simp, List.cons_lt_cons_iff.2 (.inl (Fin.lt_def.2 (Nat.lt_succ_self _)))⟩
      · cases h

theorem countUp?_map_last (ds : List Digit) : countUp? (ds.map fun _ => Digit.last) = none := by
  induction ds with
  | nil => rfl
  | cons d ds ih =>
    simp only [List.map_cons, countUp?, ih]
    rfl

theorem eq_map_last_of_countUp? {ds : List Digit} (h : countUp? ds = none) :
    ds = ds.map fun _ => Digit.last := by
  induction ds with
  | nil => rfl
  | cons d ds ih =>
    simp only [countUp?] at h
    split at h
    · cases h
    · next hds =>
      split at h
      · cases h
      · next hd =>
        have hlast : d = Digit.last := Fin.ext (by simp only [Digit.last]; omega)
        rw [List.map_cons, ← ih hds, hlast]

/-- Digits of the same number that lie above reach at least as far as counting up. -/
theorem not_lt_of_countUp? {ds es fs : List Digit} (h : countUp? ds = some es)
    (hl : fs.length = ds.length) (hlt : ds < fs) : ¬ fs < es := by
  induction ds generalizing es fs with
  | nil => cases h
  | cons d ds ih =>
    cases fs with
    | nil => cases hl
    | cons f fs =>
      have hlength : fs.length = ds.length := Nat.succ.inj hl
      intro hfe
      simp only [countUp?] at h
      split at h
      · -- The first digit stays, so the digits behind it have counted up.
        next es' hes =>
        cases h
        obtain ⟨-, hlt, hfe⟩ := of_cons_between hlt hfe
        exact ih hes hlength hlt hfe
      · -- The digits behind the first one are all at their last, so the first one moves on.
        next hds =>
        split at h
        · cases h
          rcases of_cons_between_next rfl hlt hfe with ⟨-, hlt⟩ | ⟨-, hfz⟩
          · rw [eq_map_last_of_countUp? hds] at hlt
            exact not_map_last_lt _ _ hlength hlt
          · exact not_lt_map_zero _ _ hlength hfz
        · cases h

theorem eq_map_zero_of_countDown? {ds : List Digit} (h : countDown? ds = none) :
    ds = ds.map fun _ => Digit.zero := by
  induction ds with
  | nil => rfl
  | cons d ds ih =>
    simp only [countDown?] at h
    split at h
    · cases h
    · next hds =>
      split at h
      · cases h
      · next hd =>
        have hzero : d = Digit.zero := Fin.ext (by simp only [Digit.zero]; omega)
        rw [List.map_cons, ← ih hds, hzero]

/-- Counting up takes back what counting down did. -/
theorem countUp?_of_countDown? {ds es : List Digit} (h : countDown? ds = some es) :
    countUp? es = some ds := by
  induction ds generalizing es with
  | nil => cases h
  | cons d ds ih =>
    simp only [countDown?] at h
    split at h
    · next fs hfs =>
      cases h
      simp only [countUp?, ih hfs]
    · next hds =>
      split at h
      · next hd =>
        cases h
        have hzero := eq_map_zero_of_countDown? hds
        have hup : d.val - 1 + 1 = d.val := Nat.sub_add_cancel hd
        simp only [countUp?, countUp?_map_last, hup, d.isLt, dif_pos, List.map_map]
        exact congrArg (fun es => some (d :: es)) hzero.symm
      · cases h

/-! ## The order of integer parts -/

/-- Integer parts compare as their digits do. -/
instance : LT IntegerPart := ⟨fun i j => i.toDigits < j.toDigits⟩

theorem lt_iff {i j : IntegerPart} :
    i < j ↔ i.head < j.head ∨ i.head = j.head ∧ i.digits < j.digits :=
  List.cons_lt_cons_iff

theorem lt_irrefl (i : IntegerPart) : ¬ i < i := List.lt_irrefl i.toDigits

theorem toDigits_injective {i j : IntegerPart} (h : i.toDigits = j.toDigits) : i = j := by
  obtain ⟨hhead, hdigits⟩ := List.cons.inj h
  obtain ⟨head, digits⟩ := i
  obtain ⟨head', digits'⟩ := j
  simp only at hhead hdigits
  rw [hhead, hdigits]

theorem length_digits_eq {i j : IntegerPart} (hi : i.WellFormed) (hj : j.WellFormed)
    (h : i.head = j.head) : i.digits.length = j.digits.length := by
  rw [hi.2, hj.2, h]

/-- What stands behind two integer parts does not change how they compare. -/
theorem append_lt_append {i j : IntegerPart} (hi : i.WellFormed) (hj : j.WellFormed) (h : i < j)
    (x y : List Digit) : i.toDigits ++ x < j.toDigits ++ y := by
  rw [toDigits, toDigits, List.cons_append, List.cons_append, List.cons_lt_cons_iff]
  rcases lt_iff.1 h with hhead | ⟨hhead, hdigits⟩
  · exact .inl hhead
  · have hlength := length_digits_eq hi hj hhead
    exact .inr ⟨hhead, append_lt_append_of_length_eq hdigits hlength x y⟩

theorem trichotomy (i j : IntegerPart) : i < j ∨ i = j ∨ j < i :=
  (lt_trichotomy i.toDigits j.toDigits).imp_right (Or.imp_left toDigits_injective)

theorem lt_or_eq_of_append_lt {i j : IntegerPart} (hi : i.WellFormed) (hj : j.WellFormed)
    {x y : List Digit} (h : i.toDigits ++ x < j.toDigits ++ y) : i < j ∨ i = j := by
  rcases trichotomy i j with hlt | he | hgt
  · exact .inl hlt
  · exact .inr he
  · exact absurd h (List.lt_asymm (append_lt_append hj hi hgt y x))

/-! ## Next and previous -/

theorem length_fill_digits (head d : Digit) : (fill head d).digits.length = digitCount head := by
  simp [fill]

theorem eq_fill {i : IntegerPart} {d : Digit} (hi : i.WellFormed)
    (h : i.digits = i.digits.map fun _ => d) : i = fill i.head d := by
  obtain ⟨head, digits⟩ := i
  simp only [fill, mk.injEq, true_and]
  rw [← hi.2, ← List.map_const']
  exact h

theorem wellFormed_fill {head : Digit} (h : firstUpper ≤ head) (d : Digit) :
    (fill head d).WellFormed :=
  ⟨h, length_fill_digits _ _⟩

/-- No digits under a head lie below nothing but zeros. -/
theorem not_digits_lt_fill_zero {i : IntegerPart} {head : Digit} (hi : i.WellFormed)
    (hhead : i.head = head) : ¬ i.digits < (fill head Digit.zero).digits := by
  have hlength : i.digits.length = (fill head Digit.zero).digits.length := by
    rw [length_fill_digits, hi.2, hhead]
  have hmap : (fill head Digit.zero).digits =
      (fill head Digit.zero).digits.map fun _ => Digit.zero := by simp [fill]
  rw [hmap]
  exact not_lt_map_zero _ _ hlength

theorem not_lt_least {i : IntegerPart} (hi : i.WellFormed) : ¬ i < least := by
  intro h
  rcases lt_iff.1 h with hhead | ⟨hhead, hdigits⟩
  · exact absurd hi.1 (Nat.not_le_of_lt (Fin.lt_def.1 hhead))
  · exact not_digits_lt_fill_zero hi hhead hdigits

/-- Where the digits overflow, no digits under the same head lie above them. -/
theorem not_digits_lt_of_countUp? {i j : IntegerPart} (hi : i.WellFormed) (hj : j.WellFormed)
    (hhead : i.head = j.head) (h : countUp? i.digits = none) : ¬ i.digits < j.digits := by
  rw [eq_map_last_of_countUp? h]
  exact not_map_last_lt _ _ (length_digits_eq hj hi hhead.symm)

/-- The next integer part has the same head while the digits count up, and the next head where
they overflow. -/
theorem succ?_cases {i j : IntegerPart} (h : i.succ? = some j) :
    (∃ digits, countUp? i.digits = some digits ∧ j = ⟨i.head, digits⟩) ∨
    countUp? i.digits = none ∧
      ∃ hnext : i.head.val + 1 < 62, j = fill ⟨i.head.val + 1, hnext⟩ Digit.zero := by
  simp only [succ?] at h
  split at h
  · next digits hdigits => exact .inl ⟨digits, hdigits, (Option.some.inj h).symm⟩
  · next hdigits =>
    split at h
    · next hnext => exact .inr ⟨hdigits, hnext, (Option.some.inj h).symm⟩
    · cases h

theorem of_succ?_eq_none {i : IntegerPart} (h : i.succ? = none) :
    countUp? i.digits = none ∧ i.head = Digit.last := by
  simp only [succ?] at h
  split at h
  · cases h
  next hdigits =>
  split at h
  · cases h
  next hhead => exact ⟨hdigits, Fin.ext (by simp only [Digit.last]; omega)⟩

/-- The next integer part has its digits and is greater. -/
theorem of_succ? {i j : IntegerPart} (hi : i.WellFormed) (h : i.succ? = some j) :
    j.WellFormed ∧ i < j := by
  rcases succ?_cases h with ⟨digits, hdigits, rfl⟩ | ⟨-, hnext, rfl⟩
  · obtain ⟨hlength, hlt⟩ := lt_of_countUp? hdigits
    exact ⟨⟨hi.1, hlength.trans hi.2⟩, lt_iff.2 (.inr ⟨rfl, hlt⟩)⟩
  · have hhead : i.head < (⟨i.head.val + 1, hnext⟩ : Digit) := Fin.lt_def.2 (Nat.lt_succ_self _)
    exact ⟨wellFormed_fill (Fin.le_trans hi.1 (Fin.le_of_lt hhead)) _, lt_iff.2 (.inl hhead)⟩

theorem ne_least_of_succ? {i j : IntegerPart} (hi : i.WellFormed) (h : i.succ? = some j) :
    j ≠ least := by
  intro he
  exact not_lt_least hi (he ▸ (of_succ? hi h).2)

/-- Where there is no next integer part, none is greater. -/
theorem not_lt_of_succ? {i j : IntegerPart} (hi : i.WellFormed) (hj : j.WellFormed)
    (h : i.succ? = none) : ¬ i < j := by
  obtain ⟨hdigits, hlast⟩ := of_succ?_eq_none h
  intro hlt
  rcases lt_iff.1 hlt with hhead | ⟨hhead, hlt⟩
  · rw [hlast] at hhead
    exact absurd hhead (Nat.not_lt_of_le (Nat.le_of_lt_succ j.head.isLt))
  · exact not_digits_lt_of_countUp? hi hj hhead hdigits hlt

/-- Between an integer part and the next one there is no other. -/
theorem not_lt_of_succ?_eq_some {i j k : IntegerPart} (hi : i.WellFormed) (hk : k.WellFormed)
    (h : i.succ? = some j) (hik : i < k) : ¬ k < j := by
  intro hkj
  rcases succ?_cases h with ⟨digits, hdigits, rfl⟩ | ⟨hdigits, hnext, rfl⟩
  · obtain ⟨hhead, hik, hkj⟩ := of_cons_between hik hkj
    exact not_lt_of_countUp? hdigits (length_digits_eq hk hi hhead.symm) hik hkj
  · -- From the last digits of one head to the first of the next.
    rcases of_cons_between_next rfl hik hkj with ⟨hhead, hik⟩ | ⟨hhead, hkj⟩
    · exact not_digits_lt_of_countUp? hi hk hhead hdigits hik
    · exact not_digits_lt_fill_zero hk hhead hkj

/-- The next integer part after the previous one is the one it was taken from. -/
theorem of_pred? {i j : IntegerPart} (hi : i.WellFormed) (h : i.pred? = some j) :
    j.WellFormed ∧ j.succ? = some i := by
  simp only [pred?] at h
  split at h
  · next digits hd =>
    cases h
    have hup := countUp?_of_countDown? hd
    have hlength : i.digits.length = digits.length := (lt_of_countUp? hup).1
    exact ⟨⟨hi.1, hlength.symm.trans hi.2⟩, by simp only [succ?, hup]⟩
  · next hdigits =>
    split at h
    · next hhead =>
      cases h
      have hlt : 10 < i.head.val := Fin.lt_def.1 hhead
      refine ⟨wellFormed_fill (Fin.le_def.2 ?_) _, ?_⟩
      · show 10 ≤ i.head.val - 1
        omega
      · have hup : i.head.val - 1 + 1 = i.head.val := by omega
        have hnone := countUp?_map_last (List.replicate (digitCount ⟨i.head.val - 1, by omega⟩)
          Digit.last)
        rw [List.map_replicate] at hnone
        simp only [succ?, fill, hnone, hup, i.head.isLt, dif_pos]
        exact congrArg some (eq_fill hi (eq_map_zero_of_countDown? hdigits)).symm
    · cases h

theorem eq_least_of_pred? {i : IntegerPart} (hi : i.WellFormed) (h : i.pred? = none) :
    i = least := by
  simp only [pred?] at h
  split at h
  · cases h
  next hdigits =>
  split at h
  · cases h
  next hhead =>
  have he : i.head = firstUpper :=
    Fin.le_antisymm (Nat.le_of_not_lt hhead) hi.1
  rw [eq_fill hi (eq_map_zero_of_countDown? hdigits), he]
  rfl

/-- The greatest integer part, `z` and 26 times `z`. -/
def greatest : IntegerPart := fill Digit.last Digit.last

theorem eq_greatest_of_succ? {i : IntegerPart} (hi : i.WellFormed) (h : i.succ? = none) :
    i = greatest := by
  obtain ⟨hdigits, hlast⟩ := of_succ?_eq_none h
  rw [eq_fill hi (eq_map_last_of_countUp? hdigits), hlast]
  rfl

/-! ## Neighbours -/

/-- Two integer parts in the order of bytes, with no other one between them. -/
structure Adjacent (i j : IntegerPart) : Prop where
  ascends : Text.BytesLt i.text j.text
  gapless : ∀ k : IntegerPart, k.WellFormed → Text.BytesLt i.text k.text →
    ¬ Text.BytesLt k.text j.text

theorem bytesLt_text_iff {i j : IntegerPart} : Text.BytesLt i.text j.text ↔ i < j :=
  Digit.bytesLt_text_iff

theorem text_eq_text_iff {i j : IntegerPart} : i.text = j.text ↔ i = j :=
  ⟨fun h => toDigits_injective (Digit.text_injective h), congrArg text⟩

theorem Adjacent.eq_above {i j k : IntegerPart} (hj : j.WellFormed) (hk : k.WellFormed)
    (hij : Adjacent i j) (hik : Adjacent i k) : j = k := by
  rcases trichotomy j k with hlt | he | hgt
  · exact absurd (bytesLt_text_iff.2 hlt) (hik.gapless j hj hij.ascends)
  · exact he
  · exact absurd (bytesLt_text_iff.2 hgt) (hij.gapless k hk hik.ascends)

theorem Adjacent.eq_below {i j k : IntegerPart} (hi : i.WellFormed) (hj : j.WellFormed)
    (hik : Adjacent i k) (hjk : Adjacent j k) : i = j := by
  rcases trichotomy i j with hlt | he | hgt
  · exact absurd hjk.ascends (hik.gapless j hj (bytesLt_text_iff.2 hlt))
  · exact he
  · exact absurd hik.ascends (hjk.gapless i hi (bytesLt_text_iff.2 hgt))

theorem adjacent_of_succ? {i j : IntegerPart} (hi : i.WellFormed) (h : i.succ? = some j) :
    Adjacent i j := by
  refine ⟨bytesLt_text_iff.2 (of_succ? hi h).2, fun k hk hik hkj => ?_⟩
  exact not_lt_of_succ?_eq_some hi hk h (bytesLt_text_iff.1 hik) (bytesLt_text_iff.1 hkj)

/-- The next integer part is the one right above. -/
theorem succ?_eq_some_iff {i j : IntegerPart} (hi : i.WellFormed) :
    i.succ? = some j ↔ j.WellFormed ∧ Adjacent i j := by
  refine ⟨fun h => ⟨(of_succ? hi h).1, adjacent_of_succ? hi h⟩, fun ⟨hj, hij⟩ => ?_⟩
  cases hs : i.succ? with
  | none => exact absurd (bytesLt_text_iff.1 hij.ascends) (not_lt_of_succ? hi hj hs)
  | some k =>
    have hk := (of_succ? hi hs).1
    rw [(adjacent_of_succ? hi hs).eq_above hk hj hij]

/-- The integer part before is the one right below. -/
theorem pred?_eq_some_iff {i j : IntegerPart} (hi : i.WellFormed) :
    i.pred? = some j ↔ j.WellFormed ∧ Adjacent j i := by
  have hbelow : ∀ {k}, i.pred? = some k → k.WellFormed ∧ Adjacent k i := by
    intro k hk
    obtain ⟨hwf, hsucc⟩ := of_pred? hi hk
    exact ⟨hwf, adjacent_of_succ? hwf hsucc⟩
  refine ⟨hbelow, fun ⟨hj, hji⟩ => ?_⟩
  cases hp : i.pred? with
  | none =>
    have hlt := bytesLt_text_iff.1 hji.ascends
    rw [eq_least_of_pred? hi hp] at hlt
    exact absurd hlt (not_lt_least hj)
  | some k =>
    obtain ⟨hk, hki⟩ := hbelow hp
    rw [hki.eq_below hk hj hji]

/--
**Next and previous are neighbours in the order of bytes.** Among the integer
parts that have their digits, only `z` and 26 times `z` has no next one, and only
`A` and 26 zeros none before. The next one is the one that is greater with no
other between, and the one before is the one that is less with no other between;
so each of the two ways leads back along the other.
-/
theorem neighbours_exact {i : IntegerPart} (hi : i.WellFormed) :
    (i.succ? = none ↔ i.text = String.ofList (List.replicate 27 'z')) ∧
    (i.pred? = none ↔ i.text = String.ofList ('A' :: List.replicate 26 '0')) ∧
    ∀ j : IntegerPart,
      (i.succ? = some j ↔ j.WellFormed ∧ Adjacent i j) ∧
      (i.pred? = some j ↔ j.WellFormed ∧ Adjacent j i) ∧
      (i.succ? = some j → j.pred? = some i) ∧
      (i.pred? = some j → j.succ? = some i) := by
  have hgreatest : greatest.text = String.ofList (List.replicate 27 'z') := by decide
  have hleast : least.text = String.ofList ('A' :: List.replicate 26 '0') := by decide
  rw [← hgreatest, ← hleast, text_eq_text_iff, text_eq_text_iff]
  refine ⟨⟨eq_greatest_of_succ? hi, ?_⟩, ⟨eq_least_of_pred? hi, ?_⟩, fun j =>
    ⟨succ?_eq_some_iff hi, pred?_eq_some_iff hi, fun h => ?_, fun h => (of_pred? hi h).2⟩⟩
  · rintro rfl
    decide
  · rintro rfl
    decide
  · obtain ⟨hj, hij⟩ := (succ?_eq_some_iff hi).1 h
    exact (pred?_eq_some_iff hj).2 ⟨hi, hij⟩

/-- From the last integer part with two digits to the first one with a single digit. -/
theorem neighbours_exact_shorter :
    (fill 34 Digit.last).text = "Yzz" ∧ (fill 35 Digit.zero).text = "Z0" ∧
      (fill 34 Digit.last).WellFormed ∧ (fill 34 Digit.last).succ? = some (fill 35 Digit.zero) ∧
      Adjacent (fill 34 Digit.last) (fill 35 Digit.zero) ∧
      (fill 35 Digit.zero).pred? = some (fill 34 Digit.last) := by
  have hwf : (fill 34 Digit.last).WellFormed := by decide
  have hnext : (fill 34 Digit.last).succ? = some (fill 35 Digit.zero) := by decide
  obtain ⟨-, -, hneighbours⟩ := neighbours_exact hwf
  obtain ⟨hsucc, -, hback, -⟩ := hneighbours (fill 35 Digit.zero)
  exact ⟨by decide, by decide, hwf, hnext, (hsucc.1 hnext).2, hback hnext⟩

end IntegerPart

end DesignTokens.OrderKey
