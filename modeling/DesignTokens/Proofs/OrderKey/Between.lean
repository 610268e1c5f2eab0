/-
A key between two bounds. Keys compare by their integer parts first and by their
fractions where those are equal (`lt_iff`), so each way in which `between?` finds
a key comes down to one fact about integer parts or about fractions.

`keyWithin` refuses bounds that are not valid keys and bounds that do not ascend,
and no others: there always is room. What it finds is itself a bound again, with
one exception. Right below the `floor` there is only the least integer part,
which it gives and which is no valid key.
-/
import DesignTokens.Proofs.OrderKey.Fraction
import DesignTokens.Proofs.OrderKey.IntegerPart
import DesignTokens.Proofs.OrderKey.Text
import DesignTokens.Proofs.Text.ByteOrder

namespace DesignTokens.OrderKey

/-- The least valid key that is a whole integer part: `A`, 25 zeros and `1`. -/
def floor : OrderKey :=
  ofInteger ⟨IntegerPart.firstUpper, List.replicate 25 Digit.zero ++ [⟨1, by decide⟩]⟩

theorem valid_floor : floor.Valid := by decide

theorem not_valid_least : ¬ (ofInteger .least).Valid := fun h => h.2.2 rfl

theorem pred?_eq_some_least_iff {i : IntegerPart} (hi : i.WellFormed) :
    i.pred? = some .least ↔ i = floor.integer := by
  constructor
  · intro h
    have hsucc : IntegerPart.least.succ? = some floor.integer := by decide
    exact Option.some.inj ((IntegerPart.of_pred? hi h).2.symm.trans hsucc)
  · intro h
    rw [h]
    decide

/-! ## The order of keys -/

theorem lt_of_fraction_lt {a b : OrderKey} (he : a.integer = b.integer)
    (h : a.fraction < b.fraction) : a < b := by
  show a.integer.toDigits ++ a.fraction < b.integer.toDigits ++ b.fraction
  rw [he]
  exact List.append_left_lt h

theorem lt_iff {a b : OrderKey} (ha : a.integer.WellFormed) (hb : b.integer.WellFormed) :
    a < b ↔ a.integer < b.integer ∨ a.integer = b.integer ∧ a.fraction < b.fraction := by
  constructor
  · intro h
    rcases IntegerPart.lt_or_eq_of_append_lt ha hb h with hlt | he
    · exact .inl hlt
    · have hfraction : a.integer.toDigits ++ a.fraction < b.integer.toDigits ++ b.fraction := h
      rw [he, append_lt_append_iff] at hfraction
      exact .inr ⟨he, hfraction⟩
  · rintro (hlt | ⟨he, hfraction⟩)
    · exact IntegerPart.append_lt_append ha hb hlt _ _
    · exact lt_of_fraction_lt he hfraction

theorem lt_trans {a b c : OrderKey} (hab : a < b) (hbc : b < c) : a < c := List.lt_trans hab hbc

theorem valid_ofInteger {i : IntegerPart} (hi : i.WellFormed) (h : i ≠ .least) :
    (ofInteger i).Valid :=
  ⟨hi, by simp [ofInteger], fun he => h (congrArg OrderKey.integer he)⟩

theorem valid_mk {i : IntegerPart} {fraction : List Digit} (hi : i.WellFormed)
    (hne : fraction ≠ []) (hlast : fraction.getLast? ≠ some Digit.zero) :
    OrderKey.Valid ⟨i, fraction⟩ :=
  ⟨hi, hlast, fun he => hne (congrArg OrderKey.fraction he)⟩

theorem lt_of_integer_lt {a b : OrderKey} (ha : a.integer.WellFormed) (hb : b.integer.WellFormed)
    (h : a.integer < b.integer) : a < b :=
  (lt_iff ha hb).2 (.inl h)

/-! ## The key that is found -/

/-- A key is above the one bound and below the other, as far as they are given. -/
def Inside (lower upper : Option OrderKey) (k : OrderKey) : Prop :=
  (∀ a ∈ lower, a < k) ∧ ∀ b ∈ upper, k < b

/-- Above a valid key there is a valid key. -/
theorem between?_some_none {a : OrderKey} (ha : a.Valid) :
    ∃ k, between? (some a) none = .ok k ∧ k.Valid ∧ a < k := by
  simp only [between?]
  split
  · next i hi =>
    obtain ⟨hwf, hlt⟩ := IntegerPart.of_succ? ha.1 hi
    exact ⟨ofInteger i, rfl, valid_ofInteger hwf (IntegerPart.ne_least_of_succ? ha.1 hi),
      lt_of_integer_lt ha.1 hwf hlt⟩
  · exact ⟨_, rfl, valid_mk ha.1 (Fraction.above_ne_nil _) (Fraction.getLast?_above _),
      lt_of_fraction_lt rfl (Fraction.lt_above _)⟩

/-- Below a valid key there is a key, and a valid one except right below the floor. -/
theorem between?_none_some {b : OrderKey} (hb : b.Valid) :
    ∃ k, between? none (some b) = .ok k ∧ k.integer.WellFormed ∧ (k.Valid ↔ b ≠ floor) ∧
      k < b := by
  simp only [between?]
  split
  · next hleast =>
    have hne : [] < b.fraction := by
      cases hf : b.fraction with
      | nil =>
        obtain ⟨integer, fraction⟩ := b
        simp only at hleast hf
        subst hleast hf
        exact absurd hb not_valid_least
      | cons d ds => exact List.nil_lt_cons _ _
    have hfloor : b ≠ floor := by
      intro he
      rw [he] at hleast
      revert hleast
      decide
    obtain ⟨-, hlt, hnil, hlast⟩ := Fraction.between_spec hne hb.2.1
    exact ⟨_, rfl, hb.1, iff_of_true (valid_mk hb.1 hnil hlast) hfloor, lt_of_fraction_lt rfl hlt⟩
  next hleast =>
  split
  · next hfraction =>
    have hfloor : b ≠ floor := fun he => hfraction (he ▸ rfl)
    refine ⟨_, rfl, hb.1, iff_of_true (valid_ofInteger hb.1 hleast) hfloor,
      lt_of_fraction_lt rfl ?_⟩
    obtain ⟨d, ds, hd⟩ := List.exists_cons_of_ne_nil hfraction
    rw [hd]
    exact List.nil_lt_cons _ _
  next hfraction =>
  split
  · next i hi =>
    obtain ⟨hwf, hsucc⟩ := IntegerPart.of_pred? hb.1 hi
    have hlt : ofInteger i < b := lt_of_integer_lt hwf hb.1 (IntegerPart.of_succ? hwf hsucc).2
    refine ⟨_, rfl, hwf, ⟨fun hv he => ?_, fun hne => valid_ofInteger hwf fun he => hne ?_⟩, hlt⟩
    · have hi' := (pred?_eq_some_least_iff hb.1).2 (congrArg OrderKey.integer he)
      rw [hi, Option.some.injEq] at hi'
      exact not_valid_least (hi' ▸ hv)
    · rw [he] at hi
      obtain ⟨integer, fraction⟩ := b
      simp only [ne_eq, Decidable.not_not] at hfraction
      have hinteger : integer = floor.integer := (pred?_eq_some_least_iff hb.1).1 hi
      rw [hfraction, hinteger]
      rfl
  · next hnone => exact absurd (IntegerPart.eq_least_of_pred? hb.1 hnone) hleast

/-- Between two valid keys that ascend there is a valid key. -/
theorem between?_some_some {a b : OrderKey} (ha : a.Valid) (hb : b.Valid) (hab : a < b) :
    ∃ k, between? (some a) (some b) = .ok k ∧ k.Valid ∧ a < k ∧ k < b := by
  simp only [between?, if_neg (not_not_intro hab)]
  rcases (lt_iff ha.1 hb.1).1 hab with hlt | ⟨he, hfraction⟩
  · have hne : a.integer ≠ b.integer := fun he => IntegerPart.lt_irrefl _ (he ▸ hlt)
    simp only [if_neg hne]
    split
    · next hnone => exact absurd hlt (IntegerPart.not_lt_of_succ? ha.1 hb.1 hnone)
    next i hi =>
    split
    · next hib =>
      obtain ⟨hwf, hai⟩ := IntegerPart.of_succ? ha.1 hi
      exact ⟨_, rfl, valid_ofInteger hwf (IntegerPart.ne_least_of_succ? ha.1 hi),
        lt_of_integer_lt ha.1 hwf hai, hib⟩
    · exact ⟨_, rfl, valid_mk ha.1 (Fraction.above_ne_nil _) (Fraction.getLast?_above _),
        lt_of_fraction_lt rfl (Fraction.lt_above _), lt_of_integer_lt ha.1 hb.1 hlt⟩
  · simp only [if_pos he]
    obtain ⟨hlower, hupper, hnil, hlast⟩ := Fraction.between_spec hfraction hb.2.1
    exact ⟨_, rfl, valid_mk ha.1 hnil hlast, lt_of_fraction_lt rfl hlower,
      lt_of_fraction_lt he hupper⟩

theorem between?_spec {lower upper : Option OrderKey} (hl : ∀ a ∈ lower, a.Valid)
    (hu : ∀ b ∈ upper, b.Valid) (h : ∀ a ∈ lower, ∀ b ∈ upper, a < b) :
    ∃ k, between? lower upper = .ok k ∧ Inside lower upper k ∧ k.integer.WellFormed ∧
      (k.Valid ↔ ¬ (lower = none ∧ upper = some floor)) := by
  cases lower with
  | none =>
    cases upper with
    | none => exact ⟨first, rfl, by simp [Inside], by decide, by decide⟩
    | some b =>
      obtain ⟨k, hk, hwf, hv, hlt⟩ := between?_none_some (hu b rfl)
      exact ⟨k, hk, by simpa [Inside] using hlt, hwf, by simpa using hv⟩
  | some a =>
    cases upper with
    | none =>
      obtain ⟨k, hk, hv, hlt⟩ := between?_some_none (hl a rfl)
      exact ⟨k, hk, by simpa [Inside] using hlt, hv.1, by simpa using hv⟩
    | some b =>
      obtain ⟨k, hk, hv, hak, hkb⟩ := between?_some_some (hl a rfl) (hu b rfl) (h a rfl b rfl)
      exact ⟨k, hk, by simpa [Inside] using ⟨hak, hkb⟩, hv.1, by simpa using hv⟩

/-! ## Bounds that are texts -/

/-- A text that may be given as a bound. -/
def Accepted (s : String) : Prop := ∃ k, ofBound s = .ok k

/-- Why there is no key between two bounds: one of them is not accepted, the lower one first, or
they do not ascend. -/
inductive Refused : Option String → Option String → KeyError → Prop
  | lower {s : String} {upper : Option String} :
      ¬ Accepted s → Refused (some s) upper (.invalid s)
  | upper {lower : Option String} {s : String} :
      (∀ a ∈ lower, Accepted a) → ¬ Accepted s → Refused lower (some s) (.invalid s)
  | disordered {a b : String} :
      Accepted a → Accepted b → ¬ Text.BytesLt a b → Refused (some a) (some b) (.disordered a b)

theorem accepted_iff {s : String} : Accepted s ↔ ∃ k : OrderKey, k.Valid ∧ k.text = s := by
  simp only [Accepted, ofBound_eq_ok_iff]

theorem eq_of_text_eq {a b : OrderKey} (ha : a.integer.WellFormed) (hb : b.integer.WellFormed)
    (h : a.text = b.text) : a = b := by
  have hk := congrArg ofDigits? (Digit.text_injective h)
  rw [ofDigits?_toDigits ha, ofDigits?_toDigits hb] at hk
  exact Option.some.inj hk

theorem accepted_text_iff {k : OrderKey} (h : k.integer.WellFormed) :
    Accepted k.text ↔ k.Valid := by
  rw [accepted_iff]
  exact ⟨fun ⟨k', hv, ht⟩ => eq_of_text_eq hv.1 h ht ▸ hv, fun hv => ⟨k, hv, rfl⟩⟩

theorem bytesLt_text_iff {a b : OrderKey} : Text.BytesLt a.text b.text ↔ a < b :=
  Digit.bytesLt_text_iff

theorem ofBound_of_not_accepted {s : String} (h : ¬ Accepted s) : ofBound s = .error (.invalid s) := by
  cases hs : ofBound s with
  | ok k => exact absurd ⟨k, hs⟩ h
  | error e => rw [(ofBound_eq_error_iff.1 hs).2]

/-- Accepted bounds are the texts of valid keys. -/
theorem exists_keys {bound : Option String} (h : ∀ s ∈ bound, Accepted s) :
    ∃ a : Option OrderKey, bound = a.map text ∧ ∀ k ∈ a, k.Valid := by
  cases bound with
  | none => exact ⟨none, rfl, by simp⟩
  | some s =>
    obtain ⟨k, hv, ht⟩ := accepted_iff.1 (h s rfl)
    exact ⟨some k, by simp [ht], by simpa using hv⟩

theorem ofOpenBound_text {a : Option OrderKey} (h : ∀ k ∈ a, k.Valid) :
    ofOpenBound (a.map text) = .ok a := by
  cases a with
  | none => rfl
  | some k => simp only [Option.map_some, ofOpenBound, ofBound_text (h k rfl), Except.map]

theorem keyWithin_text {a b : Option OrderKey} (ha : ∀ k ∈ a, k.Valid) (hb : ∀ k ∈ b, k.Valid) :
    keyWithin (a.map text) (b.map text) = text <$> between? a b := by
  simp only [keyWithin, ofOpenBound_text ha, ofOpenBound_text hb, bind, Except.bind, pure,
    Except.pure, Functor.map, Except.map]

theorem keyWithin_of_refused {lower upper : Option String} {e : KeyError}
    (h : Refused lower upper e) : keyWithin lower upper = .error e := by
  cases h with
  | lower hs =>
    simp only [keyWithin, ofOpenBound, ofBound_of_not_accepted hs, Except.map, bind, Except.bind]
  | upper hl hs =>
    obtain ⟨a, rfl, ha⟩ := exists_keys hl
    rw [keyWithin, ofOpenBound_text ha]
    simp only [ofOpenBound, ofBound_of_not_accepted hs, Except.map, bind, Except.bind]
  | disordered ha hb hab =>
    obtain ⟨a, hva, rfl⟩ := accepted_iff.1 ha
    obtain ⟨b, hvb, rfl⟩ := accepted_iff.1 hb
    have hnot : ¬ a < b := fun hlt => hab (bytesLt_text_iff.2 hlt)
    have hk := keyWithin_text (a := some a) (b := some b) (by simpa using hva) (by simpa using hvb)
    simp only [Option.map_some, between?, if_pos hnot] at hk
    exact hk

/-- Bounds that are not refused are the texts of valid keys that ascend. -/
theorem exists_keys_of_not_refused {lower upper : Option String}
    (h : ∀ e, ¬ Refused lower upper e) : ∃ a b : Option OrderKey,
      lower = a.map text ∧ upper = b.map text ∧ (∀ k ∈ a, k.Valid) ∧ (∀ k ∈ b, k.Valid) ∧
        ∀ x ∈ a, ∀ y ∈ b, x < y := by
  have hl : ∀ s ∈ lower, Accepted s := by
    intro s hs
    by_contra hna
    cases hs
    exact h _ (.lower hna)
  have hu : ∀ s ∈ upper, Accepted s := by
    intro s hs
    by_contra hna
    cases hs
    exact h _ (.upper hl hna)
  obtain ⟨a, rfl, ha⟩ := exists_keys hl
  obtain ⟨b, rfl, hb⟩ := exists_keys hu
  refine ⟨a, b, rfl, rfl, ha, hb, fun x hx y hy => ?_⟩
  by_contra hxy
  cases hx
  cases hy
  exact h _ (.disordered (hl _ rfl) (hu _ rfl) fun hlt => hxy (bytesLt_text_iff.1 hlt))

/--
**A key between any two bounds.** Whatever is given as bounds, it is refused just
if a bound is not accepted, the lower one being looked at first, or the two do
not ascend in the order of bytes. Otherwise there is a key, strictly between
them in that order; room never runs out.
-/
theorem keyWithin_correct (lower upper : Option String) :
    (∀ e, keyWithin lower upper = .error e ↔ Refused lower upper e) ∧
    ((¬ ∃ e, Refused lower upper e) → ∃ k, keyWithin lower upper = .ok k ∧
      (∀ a ∈ lower, Text.BytesLt a k) ∧ ∀ b ∈ upper, Text.BytesLt k b) ∧
    keyWithin lower upper ≠ .error .noRoom := by
  have hfound : (¬ ∃ e, Refused lower upper e) → ∃ k, keyWithin lower upper = .ok k ∧
      (∀ a ∈ lower, Text.BytesLt a k) ∧ ∀ b ∈ upper, Text.BytesLt k b := by
    intro h
    obtain ⟨a, b, rfl, rfl, ha, hb, hab⟩ := exists_keys_of_not_refused fun e he => h ⟨e, he⟩
    obtain ⟨k, hk, ⟨hak, hkb⟩, -, -⟩ := between?_spec ha hb hab
    refine ⟨k.text, by rw [keyWithin_text ha hb, hk]; rfl, ?_, ?_⟩
    · simpa [bytesLt_text_iff] using hak
    · simpa [bytesLt_text_iff] using hkb
  have herror : ∀ e, keyWithin lower upper = .error e ↔ Refused lower upper e := by
    refine fun e => ⟨fun he => ?_, keyWithin_of_refused⟩
    by_cases h : ∃ e, Refused lower upper e
    · obtain ⟨e', he'⟩ := h
      rw [keyWithin_of_refused he', Except.error.injEq] at he
      exact he ▸ he'
    · obtain ⟨k, hk, -⟩ := hfound h
      rw [hk] at he
      cases he
  exact ⟨herror, hfound, fun he => nomatch (herror _).1 he⟩

/-- Two integer parts that follow each other under different heads: only a fraction fits between. -/
theorem keyWithin_neighbours :
    (¬ ∃ e, Refused (some "Zz") (some "a0") e) ∧
      ∃ k, keyWithin (some "Zz") (some "a0") = .ok k ∧ k = "ZzV" ∧
        (∀ a ∈ some "Zz", Text.BytesLt a k) ∧ ∀ b ∈ some "a0", Text.BytesLt k b := by
  have hk : keyWithin (some "Zz") (some "a0") = .ok "ZzV" := by decide
  have hcorrect := keyWithin_correct (some "Zz") (some "a0")
  have hnot : ¬ ∃ e, Refused (some "Zz") (some "a0") e := by
    rintro ⟨e, he⟩
    have herror := (hcorrect.1 e).2 he
    rw [hk] at herror
    cases herror
  obtain ⟨k, hfound, hbounds⟩ := hcorrect.2.1 hnot
  rw [hk, Except.ok.injEq] at hfound
  exact ⟨hnot, k, hfound ▸ hk, hfound.symm, hbounds⟩

end DesignTokens.OrderKey
