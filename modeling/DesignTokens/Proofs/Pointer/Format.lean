/-
Paths and their texts: a formatted path parses back to the path, so no two
paths have one text. Escaping takes every slash out of a step, and so the
slashes left in a text are those between steps.
-/
import DesignTokens.Pointer.Basic

namespace DesignTokens.Pointer

theorem slash_notMem_escapeChars (cs : List Char) : '/' ∉ escapeChars cs := by
  fun_induction escapeChars cs with
  | case1 => simp
  | case2 cs ih => simp [ih]
  | case3 cs ih => simp [ih]
  | case4 c cs h₁ h₂ ih =>
    have hc : '/' ≠ c := fun he => h₂ he.symm
    simp [hc, ih]

theorem unescapeChars_escapeChars (cs : List Char) : unescapeChars (escapeChars cs) = cs := by
  fun_induction escapeChars cs with
  | case1 => rfl
  | case2 cs ih => rw [unescapeChars, ih]
  | case3 cs ih => rw [unescapeChars, ih]
  | case4 c cs h₁ h₂ ih =>
    rw [unescapeChars, ih]
    · intro _ he
      exact fun _ => h₁ he
    · intro _ he
      exact fun _ => h₁ he

theorem flatMap_escapeChars (step : String) (path : Path) :
    (step :: path).flatMap (fun step => '/' :: escapeChars step.toList) =
      '/' :: Text.joinChars '/' ((step :: path).map fun step => escapeChars step.toList) := by
  induction path generalizing step with
  | nil => simp [Text.joinChars]
  | cons next path ih =>
    rw [List.flatMap_cons, ih]
    rfl

/-- A formatted path parses back. -/
theorem parse_format (path : Path) : parse (format path) = path := by
  cases path with
  | nil => rfl
  | cons step path =>
    have hparts : ∀ part ∈ (step :: path).map fun step => escapeChars step.toList, '/' ∉ part := by
      intro part hpart
      obtain ⟨s, -, hs⟩ := List.mem_map.1 hpart
      exact hs ▸ slash_notMem_escapeChars _
    rw [format, flatMap_escapeChars, parse, String.toList_ofList]
    have hsplit := Text.splitChars_joinChars (by simp) hparts
    simp only
    rw [hsplit, List.map_map]
    have hid : ((fun part => String.ofList (unescapeChars part)) ∘
        fun step : String => escapeChars step.toList) = id := by
      funext s
      simp [unescapeChars_escapeChars]
    rw [hid, List.map_id]

/-- Different paths have different texts. -/
theorem format_injective {p q : Path} (h : format p = format q) : p = q := by
  rw [← parse_format p, h, parse_format]

theorem format_append (p q : Path) : format (p ++ q) = format p ++ format q := by
  rw [format, List.flatMap_append, String.ofList_append]
  rfl

theorem format_singleton (step : String) : format [step] = "/" ++ escape step := by
  rw [format, List.flatMap_singleton, String.ofList_cons]
  rfl

end DesignTokens.Pointer
