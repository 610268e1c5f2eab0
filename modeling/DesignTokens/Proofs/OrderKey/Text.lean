/-
Keys and their texts. The text of a key reads back as the key, and texts compare
as keys do, so everything about the order of keys can be said about digits.
-/
import DesignTokens.OrderKey.Basic
import DesignTokens.Proofs.Outcome
import DesignTokens.Proofs.Text.ByteOrder

namespace DesignTokens.OrderKey

namespace Digit

theorem char_injective {a b : Digit} (h : a.char = b.char) : a = b := by
  have he := congrArg ofChar? h
  rw [ofChar?_char, ofChar?_char] at he
  exact Option.some.inj he

theorem ofText?_text (ds : List Digit) : ofText? (text ds) = some ds := by
  rw [ofText?, text, String.toList_ofList]
  induction ds with
  | nil => rfl
  | cons d ds ih => simp [ofChar?_char, ih]

theorem text_injective {a b : List Digit} (h : text a = text b) : a = b := by
  have hd := congrArg ofText? h
  rw [ofText?_text, ofText?_text] at hd
  exact Option.some.inj hd

theorem char_of_ofChar? {c : Char} {d : Digit} (h : ofChar? c = some d) : d.char = c := by
  simp only [ofChar?] at h
  split at h
  · next hn =>
    cases h
    have hlt : c.toNat - 48 < 10 := by omega
    have hback : 48 + (c.toNat - 48) = c.toNat := by omega
    simp only [char, if_pos hlt, hback, Char.ofNat_toNat]
  split at h
  · next hn =>
    cases h
    have hge : ¬ c.toNat - 55 < 10 := by omega
    have hlt : c.toNat - 55 < 36 := by omega
    have hback : 55 + (c.toNat - 55) = c.toNat := by omega
    simp only [char, if_neg hge, if_pos hlt, hback, Char.ofNat_toNat]
  split at h
  · next hn =>
    cases h
    have hge : ¬ c.toNat - 61 < 10 := by omega
    have hge' : ¬ c.toNat - 61 < 36 := by omega
    have hback : 61 + (c.toNat - 61) = c.toNat := by omega
    simp only [char, if_neg hge, if_neg hge', hback, Char.ofNat_toNat]
  · cases h

theorem map_char_of_mapM {cs : List Char} {ds : List Digit} (h : cs.mapM ofChar? = some ds) :
    ds.map char = cs := by
  induction cs generalizing ds with
  | nil =>
    cases h
    rfl
  | cons c cs ih =>
    simp only [List.mapM_cons, Option.bind_eq_bind, Option.bind_eq_some_iff, Option.pure_def,
      Option.some.injEq] at h
    obtain ⟨d, hd, es, hes, rfl⟩ := h
    rw [List.map_cons, char_of_ofChar? hd, ih hes]

theorem text_of_ofText? {s : String} {ds : List Digit} (h : ofText? s = some ds) : text ds = s := by
  rw [text, map_char_of_mapM h, String.ofList_toList]

theorem text_lt_text_iff {a b : List Digit} : text a < text b ↔ a < b := by
  rw [String.lt_iff, text, text, String.toList_ofList, String.toList_ofList]
  induction a generalizing b with
  | nil => cases b <;> simp
  | cons x a ih =>
    cases b with
    | nil => simp
    | cons y b =>
      have heq : x.char = y.char ↔ x = y := ⟨char_injective, congrArg char⟩
      simp only [List.map_cons, List.cons_lt_cons_iff, char_lt_char, heq, ih]

/-- The bytes of texts compare as the digits do. -/
theorem bytesLt_text_iff {a b : List Digit} : Text.BytesLt (text a) (text b) ↔ a < b :=
  Text.bytesLt_iff.trans text_lt_text_iff

end Digit

theorem ofDigits?_toDigits {k : OrderKey} (h : k.integer.WellFormed) :
    ofDigits? k.toDigits = some k := by
  obtain ⟨⟨head, digits⟩, fraction⟩ := k
  obtain ⟨hhead, hlength⟩ := h
  simp only at hhead hlength
  simp [toDigits, IntegerPart.toDigits, ofDigits?, hhead, ← hlength]

theorem ofText?_text {k : OrderKey} (h : k.Valid) : ofText? k.text = some k := by
  simp only [ofText?, text, Digit.ofText?_text, Option.bind_some, ofDigits?_toDigits h.1, if_pos h]

theorem ofBound_text {k : OrderKey} (h : k.Valid) : ofBound k.text = .ok k := by
  rw [ofBound, ofText?_text h]

theorem toDigits_of_ofDigits? {ds : List Digit} {k : OrderKey} (h : ofDigits? ds = some k) :
    k.toDigits = ds := by
  cases ds with
  | nil => cases h
  | cons head ds =>
    simp only [ofDigits?] at h
    split at h
    · cases h
      simp only [toDigits, IntegerPart.toDigits, List.cons_append, List.take_append_drop]
    · cases h

/-- Only the texts of valid keys are accepted as bounds. -/
theorem ofBound_eq_ok_iff {s : String} {k : OrderKey} :
    ofBound s = .ok k ↔ k.Valid ∧ k.text = s := by
  refine ⟨fun h => ?_, fun ⟨hv, hs⟩ => hs ▸ ofBound_text hv⟩
  simp only [ofBound, ofText?] at h
  split at h
  · next k' hk' =>
    cases h
    split at hk'
    · next k'' hd =>
      split at hk'
      · next hv =>
        cases hk'
        obtain ⟨ds, hds, hk⟩ := Option.bind_eq_some_iff.1 hd
        refine ⟨hv, ?_⟩
        rw [text, toDigits_of_ofDigits? hk, Digit.text_of_ofText? hds]
      · cases hk'
    · cases hk'
  · cases h

theorem ofBound_eq_error_iff {s : String} {e : KeyError} :
    ofBound s = .error e ↔ (∀ k, ofBound s ≠ .ok k) ∧ e = .invalid s := by
  unfold ofBound
  split
  · next k _ => simp
  · simp [eq_comm]

end DesignTokens.OrderKey
