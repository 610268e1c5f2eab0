/-
Every place can be referenced. A path is written as a fragment: a hash, and the
text of the path with `%25` for each percent sign. Reading the fragment undoes
three spellings one after the other, and none of them can take up what another
has given: the first hash alone ends what names a document, so that a hash in a
step is part of the text; a percent sign that was put in is read back in one pass
and not looked at again; and only then are tildes and slashes read
(`fragment_of_path`).

How percent-escapes are read is a parameter here, of which nothing is assumed but
what such a reader is for (`PercentDecoder`).
-/
import DesignTokens.Pointer.Fragment
import DesignTokens.Proofs.Pointer.Spelling

namespace DesignTokens.Pointer

/-! ## Reading percent-escapes -/

/-- The bytes begin with a percent sign and two hexadecimal digits. -/
def BeginsEscaped (bytes : List UInt8) : Prop :=
  ∃ b c rest, bytes = percent :: b :: c :: rest ∧ (hexValue? b).isSome ∧ (hexValue? c).isSome

/--
What bytes with percent-escapes stand for, from the left: a percent sign and two
hexadecimal digits for the byte that they write, and all else for itself.
-/
inductive PercentDecoded : List UInt8 → List UInt8 → Prop
  | nil : PercentDecoded [] []
  | escape {b c high low : UInt8} {rest decoded : List UInt8} (hb : hexValue? b = some high)
      (hc : hexValue? c = some low) (h : PercentDecoded rest decoded) :
      PercentDecoded (percent :: b :: c :: rest) ((16 * high + low) :: decoded)
  | plain {a : UInt8} {rest decoded : List UInt8} (hplain : ¬ BeginsEscaped (a :: rest))
      (h : PercentDecoded rest decoded) : PercentDecoded (a :: rest) (a :: decoded)

/-- What a reader of percent-escapes is for: it gives the text of the decoded bytes, and fails
only if these are not UTF-8. -/
def PercentDecoder (decode : String → Option String) : Prop :=
  ∀ text, ∃ decoded, PercentDecoded (utf8 text.toList) decoded ∧ decode text = text? decoded

theorem not_beginsEscaped_of_ne {a : UInt8} (h : a ≠ percent) (rest : List UInt8) :
    ¬ BeginsEscaped (a :: rest) := by
  rintro ⟨b, c, after, he, -, -⟩
  exact h (List.cons.inj he).1

theorem PercentDecoded.unique {bytes x y : List UInt8} (hx : PercentDecoded bytes x)
    (hy : PercentDecoded bytes y) : x = y := by
  induction hx generalizing y with
  | nil =>
    cases hy
    rfl
  | escape hb hc _ ih =>
    cases hy with
    | escape hb' hc' h' =>
      cases hb.symm.trans hb'
      cases hc.symm.trans hc'
      rw [ih h']
    | plain hplain _ =>
      exact absurd ⟨_, _, _, rfl, by simp [hb], by simp [hc]⟩ hplain
  | plain hplain _ ih =>
    cases hy with
    | escape hb hc _ =>
      exact absurd ⟨_, _, _, rfl, by simp [hb], by simp [hc]⟩ hplain
    | plain _ h' => rw [ih h']

theorem percentDecoded_percentDecode (bytes : List UInt8) :
    PercentDecoded bytes (percentDecode bytes) := by
  fun_induction percentDecode bytes with
  | case1 => exact .nil
  | case2 a => exact .plain (by simp [BeginsEscaped]) .nil
  | case3 a b => exact .plain (by simp [BeginsEscaped]) (.plain (by simp [BeginsEscaped]) .nil)
  | case4 b c rest low high hc hb ih => exact .escape hb hc ih
  | case5 b c rest hdigits ih =>
    refine .plain ?_ ih
    rintro ⟨b', c', after, he, hb, hc⟩
    obtain ⟨rfl, rfl, -⟩ : b = b' ∧ c = c' ∧ rest = after := by simpa using he
    obtain ⟨high, hhigh⟩ := Option.isSome_iff_exists.1 hb
    obtain ⟨low, hlow⟩ := Option.isSome_iff_exists.1 hc
    exact hdigits high low hhigh hlow
  | case6 a b c rest ha ih => exact .plain (not_beginsEscaped_of_ne ha _) ih

theorem percentDecoder_decodedText? : PercentDecoder decodedText? :=
  fun _ => ⟨_, percentDecoded_percentDecode _, rfl⟩

/-- All readers of percent-escapes agree. -/
theorem PercentDecoder.eq {decode : String → Option String} (h : PercentDecoder decode) :
    decode = decodedText? := by
  funext text
  obtain ⟨decoded, hdecoded, htext⟩ := h text
  rw [htext, hdecoded.unique (percentDecoded_percentDecode _), decodedText?]

/-! ## Percent signs escaped -/

/-- Bytes without a percent sign stand for themselves, whatever follows. -/
theorem PercentDecoded.append_plain {bytes rest decoded : List UInt8} (hplain : percent ∉ bytes)
    (h : PercentDecoded rest decoded) : PercentDecoded (bytes ++ rest) (bytes ++ decoded) := by
  induction bytes with
  | nil => exact h
  | cons a bytes ih =>
    rw [List.mem_cons, not_or] at hplain
    exact .plain (not_beginsEscaped_of_ne (Ne.symm hplain.1) _) (ih hplain.2)

/-- A percent sign is a byte of no other character. -/
theorem percent_notMem_utf8EncodeChar {c : Char} (h : c ≠ '%') :
    percent ∉ String.utf8EncodeChar c := by
  have hval : c.val.toNat ≠ 37 := fun he => h (Char.ext (UInt32.toNat_inj.1 he))
  fun_cases String.utf8EncodeChar c <;>
    simp only [percent, List.mem_cons, List.not_mem_nil, or_false, not_or, ← UInt8.toNat_inj,
      UInt8.toNat_ofNat', UInt8.toNat_ofNat] <;> omega

/-- A text with `%25` for each percent sign. -/
def escapePercents (text : String) : String :=
  String.ofList (replaceChar '%' ['%', '2', '5'] text.toList)

theorem percentDecoded_escaped (cs : List Char) :
    PercentDecoded (utf8 (replaceChar '%' ['%', '2', '5'] cs)) (utf8 cs) := by
  induction cs with
  | nil => exact .nil
  | cons c cs ih =>
    by_cases hc : c = '%'
    · subst hc
      have htwo : hexValue? 50 = some 2 := by decide
      have hfive : hexValue? 53 = some 5 := by decide
      exact .escape htwo hfive ih
    · have hkept : replaceChar '%' ['%', '2', '5'] (c :: cs) =
          c :: replaceChar '%' ['%', '2', '5'] cs := by
        simp [replaceChar, hc]
      rw [hkept, utf8, utf8, List.flatMap_cons, List.flatMap_cons]
      exact ih.append_plain (percent_notMem_utf8EncodeChar hc)

theorem text?_utf8 (cs : List Char) : text? (utf8 cs) = some (String.ofList cs) := by
  have hvalid : (utf8 cs).toByteArray.IsValidUTF8 := ByteArray.isValidUTF8_utf8Encode (l := cs)
  rw [text?, String.fromUTF8?, dif_pos hvalid]
  rfl

theorem PercentDecoder.decode_escapePercents {decode : String → Option String}
    (h : PercentDecoder decode) (text : String) : decode (escapePercents text) = some text := by
  obtain ⟨decoded, hdecoded, htext⟩ := h (escapePercents text)
  rw [escapePercents, String.toList_ofList] at hdecoded
  rw [htext, hdecoded.unique (percentDecoded_escaped _), text?_utf8, String.ofList_toList]

/-! ## Fragments -/

theorem PercentDecoder.ofFragmentBy_eq {decode : String → Option String}
    (h : PercentDecoder decode) : ofFragmentBy decode = ofFragment := by
  rw [h.eq, ofFragment]

theorem PercentDecoder.atFragmentBy_eq {decode : String → Option String}
    (h : PercentDecoder decode) : atFragmentBy decode = atFragment := by
  rw [h.eq, atFragment]

/-- The reference to the place that a path leads to. -/
def fragmentOf (path : Path) : String := "#" ++ escapePercents (format path)

/-- Only the first hash of a reference is looked at: what follows it is decoded as it stands. -/
theorem toList_fragmentOf (path : Path) :
    (fragmentOf path).toList = '#' :: (escapePercents (format path)).toList := by
  simp [fragmentOf]

theorem ofFragmentBy_fragmentOf {decode : String → Option String} (h : PercentDecoder decode)
    (path : Path) : ofFragmentBy decode (fragmentOf path) = .ok path := by
  simp only [ofFragmentBy, toList_fragmentOf, String.ofList_toList, h.decode_escapePercents,
    check_format, parse_format]

/--
**Every place can be referenced.** Whatever the steps of a path hold, its
reference is read back as the path, by every reader of fragments whose
percent-escapes are read as they should be; so following the reference is
following the path. The readers of this library are such readers.
-/
theorem fragment_of_path {decode : String → Option String} (h : PercentDecoder decode)
    (path : Path) :
    ofFragmentBy decode (fragmentOf path) = .ok path ∧
    (∀ doc, atFragmentBy decode doc (fragmentOf path) = find doc path) ∧
    ofFragmentBy decode = ofFragment ∧ atFragmentBy decode = atFragment := by
  have hpath := ofFragmentBy_fragmentOf h path
  refine ⟨hpath, fun doc => ?_, h.ofFragmentBy_eq, h.atFragmentBy_eq⟩
  rw [atFragmentBy, hpath]

/-- Steps that look like escapes of each of the three kinds, and that hold the separators. -/
theorem fragment_of_path_nested :
    let path := ["%2541", "~01", "a#b/c", "", "ü%", "%"]
    PercentDecoder decodedText? ∧
    fragmentOf path = "#/%252541/~001/a#b~1c//ü%25/%25" ∧
    ofFragment (fragmentOf path) = .ok path :=
  have h := percentDecoder_decodedText?
  have hread := fragment_of_path h ["%2541", "~01", "a#b/c", "", "ü%", "%"]
  ⟨h, by decide, hread.2.2.1 ▸ hread.1⟩

end DesignTokens.Pointer
