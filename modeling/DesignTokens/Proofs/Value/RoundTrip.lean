/-
Reading and writing of values agree (`TokenValue.read_of_written`): what is
read is written without fault, reads back as the same value, and is then written
as the same text. The same holds of literals alone, which are read without a look
for aliases: there a font name may start with a brace, and it stays a name.
-/
import DesignTokens.Proofs.Value.ReadBack

namespace DesignTokens

open Outcome

theorem StrokeStyle.toJson_of_string {text : String} {s : StrokeStyle}
    (h : StrokeStyle.ofJson (.string text) = .ok s) : s.toJson = .string text := by
  simp only [StrokeStyle.ofJson, bind_eq_ok_iff, pure_eq_ok_iff] at h
  obtain ⟨k, hk, rfl⟩ := h
  exact Keyword.eq_of_ofJson hk

/-- Only font names and named strokes are read from texts, and they are written as such. -/
theorem Literal.toJson_of_string {type : TokenType} {text : String} {lit : Literal}
    (h : Literal.ofJson type (.string text) = .ok lit) : lit.toJson = .string text := by
  cases type <;> obtain ⟨a, ha, rfl⟩ := exists_of_make h
  case fontFamily => exact FontFamily.eq_of_ofJson ha
  case strokeStyle => exact StrokeStyle.toJson_of_string ha
  all_goals cases ha

/-- A literal reads back under its type, also where its text could be taken for an alias. -/
theorem Literal.ofJson_toJson_self {type : TokenType} {raw : Json} {lit : Literal}
    (h : Literal.ofJson type raw = .ok lit) : Literal.ofJson type lit.toJson = .ok lit := by
  have hspelled : ∀ ref ∈ lit.aliases, ref.Spelled := fun _ => Literal.spelled_of_ofJson h
  cases raw with
  | string text => rw [Literal.toJson_of_string h, h]
  | _ => exact (Literal.ofJson_toJson rfl h rfl hspelled).2

/--
**What is written of a value reads back.** A value that was read is written
without fault by a writer that shows its aliases; under the same type it is read
again from what was written, which is what it is then written as. If it is a
literal, it has the type under which it was read. A literal that was read as such
has that type, and is read again from its own text.
-/
theorem TokenValue.read_of_written {ε : Type} :
    (∀ (type : Option TokenType) (raw : Json) (v : TokenValue),
      TokenValue.ofJson type raw = .ok v →
      ∃ raw', v.write (fun ref => (.ok ref.display : Except ε String)) = .ok raw' ∧
        TokenValue.ofJson type raw' = .ok v ∧
        (∀ v', TokenValue.ofJson type raw' = .ok v' →
          v'.write (fun ref => (.ok ref.display : Except ε String)) = .ok raw') ∧
        ∀ lit, v = .literal lit → type = some lit.type) ∧
    ∀ (type : TokenType) (raw : Json) (lit : Literal), Literal.ofJson type raw = .ok lit →
      lit.type = type ∧ Literal.ofJson type lit.toJson = .ok lit := by
  refine ⟨fun type raw v h => ?_, fun type raw lit h => ?_⟩
  · have hwrite : v.write (fun ref => (.ok ref.display : Except ε String)) = .ok v.toJson :=
      v.write_eq_ok fun _ _ => rfl
    have hback := TokenValue.ofJson_toJson h
    refine ⟨v.toJson, hwrite, hback, fun v' hv' => ?_, fun lit hlit => ?_⟩
    · cases hback.symm.trans hv'
      exact hwrite
    · subst hlit
      exact TokenValue.type_eq_of_ofJson h
  · exact ⟨Literal.type_eq_of_ofJson h, Literal.ofJson_toJson_self h⟩

/-- A border whose dashes are a length and an alias, with a member that no border has. -/
def dashedBorder : Json :=
  .object [("width", .string "\x7bline.width\x7d"),
    ("style", .object [("lineCap", .string "round"), ("dashArray", .array [
      .object [("value", .number (.integer 2)), ("unit", .string "px")],
      .string "\x7bline.gap\x7d"])]),
    ("note", .null), ("color", .string "\x7bink\x7d")]

/-- Its members come in the order of a border, and a font name in braces stays a name. -/
theorem TokenValue.read_of_written_dashes :
    (∃ v raw', TokenValue.ofJson (some .border) dashedBorder = .ok v ∧
      v.write (fun ref => (.ok ref.display : Except String String)) = .ok raw' ∧
      raw'.members?.map Dict.keys = some ["color", "width", "style"] ∧
      TokenValue.ofJson (some .border) raw' = .ok v) ∧
    Literal.ofJson .fontFamily (.string "\x7bink\x7d") = .ok (.fontFamily (.one "\x7bink\x7d")) ∧
    Literal.ofJson .fontFamily (Literal.fontFamily (.one "\x7bink\x7d")).toJson =
      .ok (.fontFamily (.one "\x7bink\x7d")) := by
  obtain ⟨v, hv, hmembers⟩ : ∃ v, TokenValue.ofJson (some .border) dashedBorder = .ok v ∧
      v.toJson.members?.map Dict.keys = some ["color", "width", "style"] :=
    ⟨.literal (.border ⟨.aliasTo (.path "ink"), .aliasTo (.path "line.width"),
      .value (.dashed [.value ⟨.integer 2, .px⟩, .aliasTo (.path "line.gap")] .round)⟩),
      by decide +kernel, by decide +kernel⟩
  obtain ⟨raw', hwrite, hback, -⟩ := (TokenValue.read_of_written (ε := String)).1 _ _ v hv
  have hraw : raw' = v.toJson := by
    rw [v.write_eq_ok fun _ _ => rfl] at hwrite
    exact (Except.ok.inj hwrite).symm
  have hname : Literal.ofJson .fontFamily (.string "\x7bink\x7d") =
      .ok (.fontFamily (.one "\x7bink\x7d")) := by decide +kernel
  exact ⟨⟨v, raw', hv, hwrite, hraw ▸ hmembers, hback⟩, hname,
    ((TokenValue.read_of_written (ε := String)).2 _ _ _ hname).2⟩

end DesignTokens
