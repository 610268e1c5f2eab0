/-
Texts compare as their bytes do: the order of texts, which is that of their
characters, is the order of their encodings in UTF-8. The encoding of a greater
character is greater at the first byte where the two differ, and neither is cut
off before it, so nothing that follows can turn the comparison round.
-/
import DesignTokens.Pointer.Fragment
import DesignTokens.Proofs.List

namespace DesignTokens.Text

open Pointer (utf8)

theorem encodeChar_append_lt {c d : Char} (h : c < d) (x y : List UInt8) :
    String.utf8EncodeChar c ++ x < String.utf8EncodeChar d ++ y := by
  have hlt : c.val.toNat < d.val.toNat := UInt32.lt_iff_toNat_lt.1 h
  have hd : d.val.toNat < 0x110000 := by
    rcases d.valid with hd | hd
    · exact Nat.lt_trans hd (by decide)
    · exact hd.2
  -- One goal for each pair of lengths; the longer form never goes with the lesser character.
  fun_cases String.utf8EncodeChar c <;> fun_cases String.utf8EncodeChar d <;>
    simp (disch := omega) only [List.cons_append, List.nil_append, List.cons_lt_cons_iff,
      UInt8.lt_iff_toNat_lt, ← UInt8.toNat_inj, UInt8.toNat_ofNat', Nat.mod_eq_of_lt] <;> omega

theorem utf8_lt_utf8_of_lt {a b : List Char} (h : a < b) : utf8 a < utf8 b := by
  induction a generalizing b with
  | nil =>
    cases b with
    | nil => cases h
    | cons d b =>
      have hne : utf8 (d :: b) ≠ [] := by
        simp [utf8, String.utf8EncodeChar_ne_nil]
      obtain ⟨e, es, he⟩ := List.exists_cons_of_ne_nil hne
      rw [he]
      exact List.nil_lt_cons _ _
  | cons c a ih =>
    cases b with
    | nil => cases h
    | cons d b =>
      simp only [utf8, List.flatMap_cons]
      rcases List.cons_lt_cons_iff.1 h with hcd | ⟨rfl, hab⟩
      · exact encodeChar_append_lt hcd _ _
      · exact append_lt_append_iff.2 (ih hab)

/-- One text stands before another in the order of their UTF-8 bytes. -/
def BytesLt (a b : String) : Prop := utf8 a.toList < utf8 b.toList

/-- Texts compare as their UTF-8 bytes do. -/
theorem utf8_lt_utf8_iff {a b : String} : utf8 a.toList < utf8 b.toList ↔ a < b := by
  refine ⟨fun h => ?_, fun h => utf8_lt_utf8_of_lt h⟩
  refine Decidable.byContradiction fun hab => ?_
  by_cases hba : b < a
  · exact List.lt_asymm h (utf8_lt_utf8_of_lt hba)
  · have he : a = b := String.le_antisymm hba hab
    subst he
    exact List.lt_irrefl _ h

theorem bytesLt_iff {a b : String} : BytesLt a b ↔ a < b := utf8_lt_utf8_iff

end DesignTokens.Text
