/-
Which texts are those of paths. Every path is read back from its text, so that
paths and texts correspond; and a text is that of the path it is read as just if
it is a pointer in which every tilde stands before a `0` or a `1`
(`texts_of_paths`). A slash ends a step and a tilde never stands at the end of
one, so the tildes of a text are those of its steps.

Steps are escaped and read back in one pass. Replacing the two characters one
after the other, through the whole step, comes to the same in one of the two
orders: escaping a tilde must come first, and reading it back last
(`escapeChars_eq_replace`, `unescapeChars_eq_replace`).
-/
import DesignTokens.Pointer.Find
import DesignTokens.Proofs.Pointer.Format

namespace DesignTokens.Pointer

theorem check_format (path : Path) : check (format path) = .ok () := by
  cases path with
  | nil => rfl
  | cons step path => simp [check, isPointer, format]

/-! ## Escaped texts -/

/-- Every tilde stands before a `0` or a `1`. -/
def Escaped (cs : List Char) : Prop :=
  ∀ before after, cs = before ++ '~' :: after → after.head? = some '0' ∨ after.head? = some '1'

theorem escaped_nil : Escaped [] := by
  intro before after h
  cases before <;> cases h

theorem escaped_cons {c : Char} {cs : List Char} :
    Escaped (c :: cs) ↔ (c = '~' → cs.head? = some '0' ∨ cs.head? = some '1') ∧ Escaped cs := by
  constructor
  · intro h
    refine ⟨fun hc => h [] cs (hc ▸ rfl), fun before after hcs => ?_⟩
    exact h (c :: before) after (by rw [hcs, List.cons_append])
  · rintro ⟨hfirst, hrest⟩ before after h
    cases before with
    | nil =>
      obtain ⟨hc, rfl⟩ := List.cons.inj h
      exact hfirst hc
    | cons b before => exact hrest before after (List.cons.inj h).2

/-- A slash does not come between a tilde and what must stand behind it. -/
theorem escaped_append_slash {part rest : List Char} :
    Escaped (part ++ '/' :: rest) ↔ Escaped part ∧ Escaped rest := by
  induction part with
  | nil => simp [escaped_cons, escaped_nil]
  | cons c part ih =>
    rw [List.cons_append, escaped_cons, escaped_cons, ih, and_assoc]
    cases part <;> simp

theorem escaped_joinChars {parts : List (List Char)} :
    Escaped (Text.joinChars '/' parts) ↔ ∀ part ∈ parts, Escaped part := by
  induction parts with
  | nil => exact iff_of_true escaped_nil (List.forall_mem_nil _)
  | cons part parts ih =>
    cases parts with
    | nil => rw [Text.joinChars, List.forall_mem_singleton]
    | cons next parts =>
      rw [Text.joinChars, escaped_append_slash, ih, List.forall_mem_cons (a := part)]
      exact List.cons_ne_nil _ _

theorem escaped_escapeChars (cs : List Char) : Escaped (escapeChars cs) := by
  fun_induction escapeChars cs with
  | case1 => exact escaped_nil
  | case2 cs ih => simp [escaped_cons, ih]
  | case3 cs ih => simp [escaped_cons, ih]
  | case4 c cs htilde _ ih => exact escaped_cons.2 ⟨fun hc => absurd hc htilde, ih⟩

/-- A step that was escaped is the escaped form of what it is read as. -/
theorem escapeChars_unescapeChars {cs : List Char} (h : Escaped cs) (hslash : '/' ∉ cs) :
    escapeChars (unescapeChars cs) = cs := by
  fun_induction unescapeChars cs with
  | case1 => rfl
  | case2 cs ih =>
    have hrest := (escaped_cons.1 (escaped_cons.1 h).2).2
    rw [escapeChars, ih hrest fun hm => hslash (by simp [hm])]
  | case3 cs ih =>
    have hrest := (escaped_cons.1 (escaped_cons.1 h).2).2
    rw [escapeChars, ih hrest fun hm => hslash (by simp [hm])]
  | case4 c cs hone hzero ih =>
    obtain ⟨hfirst, hrest⟩ := escaped_cons.1 h
    have hc : c ≠ '~' := by
      rintro rfl
      cases cs with
      | nil => rcases hfirst rfl with hd | hd <;> cases hd
      | cons d cs =>
        rcases hfirst rfl with hd | hd
        · exact hzero cs rfl (by rw [Option.some.inj hd])
        · exact hone cs rfl (by rw [Option.some.inj hd])
    have hc' : c ≠ '/' := fun he => hslash (by simp [he])
    rw [escapeChars, ih hrest fun hm => hslash (by simp [hm])]
    · exact hc
    · exact hc'

/-! ## Texts and paths -/

theorem toList_format_cons (step : String) (path : Path) : (format (step :: path)).toList =
    '/' :: Text.joinChars '/' ((step :: path).map fun step => escapeChars step.toList) := by
  rw [format, String.toList_ofList, flatMap_escapeChars]

theorem escaped_format (path : Path) : Escaped (format path).toList := by
  cases path with
  | nil => exact escaped_nil
  | cons step path =>
    rw [toList_format_cons, escaped_cons, escaped_joinChars, List.forall_mem_map]
    exact ⟨fun h => absurd h (by decide), fun s _ => escaped_escapeChars s.toList⟩

theorem parse_slash {text : String} {cs : List Char} (h : text.toList = '/' :: cs) :
    parse text = (Text.splitChars '/' cs).map fun part => String.ofList (unescapeChars part) := by
  simp only [parse, h]

/-- Formatting the steps read from parts without a slash puts a slash before each part. -/
theorem toList_format_of_parts {parts : List (List Char)} (hne : parts ≠ [])
    (hesc : ∀ part ∈ parts, Escaped part) (hslash : ∀ part ∈ parts, '/' ∉ part) :
    (format (parts.map fun part => String.ofList (unescapeChars part))).toList =
      '/' :: Text.joinChars '/' parts := by
  have hparts : (parts.map fun part => String.ofList (unescapeChars part)).map
      (fun step => escapeChars step.toList) = parts := by
    rw [List.map_map]
    refine (List.map_congr_left fun part hpart => ?_).trans (List.map_id parts)
    rw [Function.comp_apply, String.toList_ofList,
      escapeChars_unescapeChars (hesc part hpart) (hslash part hpart), id]
  cases parts with
  | nil => exact absurd rfl hne
  | cons part parts =>
    rw [List.map_cons, toList_format_cons, ← List.map_cons (f := fun part =>
      String.ofList (unescapeChars part)), hparts]

/-- A pointer in which every tilde is escaped is the text of the path that it is read as. -/
theorem format_parse {text : String} (hcheck : check text = .ok ()) (h : Escaped text.toList) :
    format (parse text) = text := by
  rw [← String.toList_inj]
  rcases hcs : text.toList with _ | ⟨c, cs⟩
  · rw [parse, hcs]
    rfl
  · obtain rfl : c = '/' := by
      simpa [check, isPointer, hcs] using hcheck
    have hjoin := Text.joinChars_splitChars '/' cs
    have hesc : Escaped cs := (escaped_cons.1 (hcs ▸ h)).2
    rw [← hjoin, escaped_joinChars] at hesc
    rw [parse_slash hcs, toList_format_of_parts (Text.splitChars_ne_nil '/' cs) hesc
      fun _ => Text.notMem_of_mem_splitChars, hjoin]

/--
**Paths and texts correspond.** The text of a path is a pointer and is read back
as the path, so that no two paths have one text; and the text of the path that a
text is read as is that text again just if it is a pointer in which every tilde
is escaped.
-/
theorem texts_of_paths :
    (∀ path, check (format path) = .ok () ∧ parse (format path) = path) ∧
    (∀ p q, format p = format q ↔ p = q) ∧
    ∀ text, format (parse text) = text ↔ check text = .ok () ∧ Escaped text.toList := by
  refine ⟨fun path => ⟨check_format path, parse_format path⟩,
    fun p q => ⟨format_injective, congrArg format⟩, fun text => ⟨fun h => ?_, fun h => ?_⟩⟩
  · rw [← h]
    exact ⟨check_format _, escaped_format _⟩
  · exact format_parse h.1 h.2

/-- No steps, one empty step and two of them; and a tilde that is read back once. -/
example : parse "" = [] ∧ parse "/" = [""] ∧ parse "//" = ["", ""] ∧ parse "/~01" = ["~1"] := by
  decide

/-! ## One replacement after the other -/

/-- A character replaced by others wherever it stands. -/
def replaceChar (c : Char) (spelled : List Char) (cs : List Char) : List Char :=
  cs.flatMap fun d => if d = c then spelled else [d]

/-- Two characters replaced by one wherever they stand together, from the left. -/
def replacePair (a b c : Char) : List Char → List Char
  | d :: e :: cs =>
    if d = a ∧ e = b then c :: replacePair a b c cs else d :: replacePair a b c (e :: cs)
  | cs => cs

theorem replacePair_cons_of_ne {a b c d : Char} (h : d ≠ a) (cs : List Char) :
    replacePair a b c (d :: cs) = d :: replacePair a b c cs := by
  cases cs with
  | nil => rfl
  | cons e cs => rw [replacePair, if_neg fun he => h he.1]

theorem replacePair_self (a b c : Char) (cs : List Char) :
    replacePair a b c (a :: b :: cs) = c :: replacePair a b c cs := by
  rw [replacePair, if_pos ⟨rfl, rfl⟩]

theorem replacePair_cons_of_head {a b c d : Char} {cs : List Char} (h : cs.head? ≠ some b) :
    replacePair a b c (d :: cs) = d :: replacePair a b c cs := by
  cases cs with
  | nil => rfl
  | cons e cs => rw [replacePair, if_neg fun he => h (congrArg some he.2)]

/-- The character put in is the only one that can come to the front. -/
theorem head?_replacePair (a b c : Char) (cs : List Char) :
    (replacePair a b c cs).head? = some c ∨ (replacePair a b c cs).head? = cs.head? := by
  fun_cases replacePair a b c cs with
  | case1 => exact .inl rfl
  | case2 => exact .inr rfl
  | case3 => exact .inr rfl

theorem escapeChars_eq_replace (cs : List Char) :
    escapeChars cs = replaceChar '/' ['~', '1'] (replaceChar '~' ['~', '0'] cs) := by
  fun_induction escapeChars cs with
  | case1 => rfl
  | case2 cs ih => simp [replaceChar, ih]
  | case3 cs ih => simp [replaceChar, ih]
  | case4 c cs htilde hslash ih =>
    have hkept : c ≠ '~' ∧ c ≠ '/' := ⟨htilde, hslash⟩
    simp [replaceChar, ih, hkept]

/-- A slash that was put in is no part of what is replaced after it. -/
theorem unescapeChars_eq_replace (cs : List Char) :
    unescapeChars cs = replacePair '~' '0' '~' (replacePair '~' '1' '/' cs) := by
  fun_induction unescapeChars cs with
  | case1 => rfl
  | case2 cs ih => rw [replacePair_self, replacePair_cons_of_ne (by decide), ih]
  | case3 cs ih =>
    have hfirst : replacePair '~' '1' '/' ('~' :: '0' :: cs) =
        '~' :: '0' :: replacePair '~' '1' '/' cs := by
      rw [replacePair_cons_of_head (by simp), replacePair_cons_of_ne (by decide)]
    rw [hfirst, replacePair_self, ih]
  | case4 c cs hone hzero ih =>
    by_cases hc : c = '~'
    · subst hc
      have hhead : ∀ d, (∀ ds, cs = d :: ds → False) → cs.head? ≠ some d := by
        intro d hd he
        obtain ⟨ds, rfl⟩ := List.head?_eq_some_iff.1 he
        exact hd ds rfl
      have hnext : (replacePair '~' '1' '/' cs).head? ≠ some '0' := by
        rcases head?_replacePair '~' '1' '/' cs with hd | hd <;> rw [hd]
        · decide
        · exact hhead '0' fun ds hds => hzero ds rfl hds
      rw [replacePair_cons_of_head (hhead '1' fun ds hds => hone ds rfl hds),
        replacePair_cons_of_head hnext, ih]
    · rw [replacePair_cons_of_ne hc, replacePair_cons_of_ne hc, ih]

end DesignTokens.Pointer
