/-
Cutting a text at every occurrence of a separator, and joining parts with it.
A text has one part more than it has separators, so the empty text has one
empty part. `join_split` says that joining the parts gives the text back,
`notMem_of_mem_splitChars` that no part holds the separator, and `split_join`
that parts without the separator are found again.
-/

namespace DesignTokens.Text

/-- The parts of a text between separators. -/
def splitChars (sep : Char) : List Char → List (List Char)
  | [] => [[]]
  | c :: cs =>
    if c = sep then [] :: splitChars sep cs
    else
      match splitChars sep cs with
      | [] => [[c]]
      | part :: parts => (c :: part) :: parts

/-- Parts with a separator between each two. -/
def joinChars (sep : Char) : List (List Char) → List Char
  | [] => []
  | [part] => part
  | part :: parts => part ++ sep :: joinChars sep parts

theorem splitChars_ne_nil (sep : Char) (cs : List Char) : splitChars sep cs ≠ [] := by
  cases cs with
  | nil => simp [splitChars]
  | cons c cs =>
    simp only [splitChars]
    split
    · simp
    · split <;> simp

theorem notMem_of_mem_splitChars {sep : Char} {cs part : List Char}
    (h : part ∈ splitChars sep cs) : sep ∉ part := by
  induction cs generalizing part with
  | nil =>
    simp only [splitChars, List.mem_singleton] at h
    simp [h]
  | cons c cs ih =>
    by_cases hc : c = sep
    · simp only [splitChars, if_pos hc, List.mem_cons] at h
      rcases h with rfl | h
      · simp
      · exact ih h
    · rcases hs : splitChars sep cs with _ | ⟨p, ps⟩
      · exact absurd hs (splitChars_ne_nil sep cs)
      · simp only [splitChars, if_neg hc, hs, List.mem_cons] at h
        rcases h with rfl | h
        · have hp : sep ∉ p := ih (by simp [hs])
          simpa [hp] using fun he => hc he.symm
        · exact ih (by simp [hs, h])

theorem joinChars_splitChars (sep : Char) (cs : List Char) :
    joinChars sep (splitChars sep cs) = cs := by
  induction cs with
  | nil => rfl
  | cons c cs ih =>
    have hne := splitChars_ne_nil sep cs
    rcases hs : splitChars sep cs with _ | ⟨part, parts⟩
    · exact absurd hs hne
    · rw [hs] at ih
      by_cases hc : c = sep
      · simp [splitChars, hs, joinChars, ih, hc]
      · cases parts with
        | nil => simpa [splitChars, hs, hc, joinChars] using ih
        | cons p ps => simpa [splitChars, hs, hc, joinChars] using ih

theorem splitChars_append {sep : Char} {part : List Char} (h : sep ∉ part) (rest : List Char) :
    splitChars sep (part ++ sep :: rest) = part :: splitChars sep rest := by
  induction part with
  | nil => simp [splitChars]
  | cons c part ih =>
    simp only [List.mem_cons, not_or] at h
    have hc : c ≠ sep := fun he => h.1 he.symm
    simp [splitChars, hc, ih h.2]

/-- What stands before the first separator is told apart from what stands behind it. -/
theorem append_cons_inj {sep : Char} {part part' : List Char} (h : sep ∉ part) (h' : sep ∉ part')
    {rest rest' : List Char} (he : part ++ sep :: rest = part' ++ sep :: rest') :
    part = part' ∧ rest = rest' := by
  have hs := congrArg (splitChars sep) he
  rw [splitChars_append h, splitChars_append h'] at hs
  obtain ⟨hpart, hrest⟩ := List.cons.inj hs
  exact ⟨hpart, by rw [← joinChars_splitChars sep rest, hrest, joinChars_splitChars]⟩

theorem splitChars_of_notMem {sep : Char} {part : List Char} (h : sep ∉ part) :
    splitChars sep part = [part] := by
  induction part with
  | nil => rfl
  | cons c part ih =>
    simp only [List.mem_cons, not_or] at h
    have hc : c ≠ sep := fun he => h.1 he.symm
    simp [splitChars, hc, ih h.2]

theorem splitChars_joinChars {sep : Char} {parts : List (List Char)} (hne : parts ≠ [])
    (h : ∀ part ∈ parts, sep ∉ part) : splitChars sep (joinChars sep parts) = parts := by
  induction parts with
  | nil => exact absurd rfl hne
  | cons part parts ih =>
    cases parts with
    | nil => simpa [joinChars] using splitChars_of_notMem (h part (by simp))
    | cons p ps =>
      rw [joinChars, splitChars_append (h part (by simp)),
        ih (by simp) fun q hq => h q (by simp [hq])]
      simp

/-- The parts of a text between separators. -/
def split (sep : Char) (s : String) : List String :=
  (splitChars sep s.toList).map String.ofList

/-- Parts with a separator between each two. -/
def join (sep : Char) (parts : List String) : String :=
  String.ofList (joinChars sep (parts.map String.toList))

theorem join_split (sep : Char) (s : String) : join sep (split sep s) = s := by
  have h : (String.toList ∘ String.ofList) = id := by funext l; simp
  simp [join, split, h, joinChars_splitChars]

theorem split_join {sep : Char} {parts : List String} (hne : parts ≠ [])
    (h : ∀ part ∈ parts, sep ∉ part.toList) : split sep (join sep parts) = parts := by
  have h' : (String.ofList ∘ String.toList) = id := by funext s; simp
  have hs := @splitChars_joinChars sep (parts.map String.toList) (by simpa)
    (by simpa using h)
  simp [split, join, hs, h']

end DesignTokens.Text
