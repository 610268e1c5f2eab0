/-
The grammar of references. A text is one if it is names between single dots, in
braces, and a name is a text that is not empty and holds neither braces nor dots
(`IsReference`). Nothing else is read as an alias, and any other text with a brace
at the front is an error, whatever type is asked for (`reference_grammar`).

The braces, the characters between them and the parts between dots are looked at
one after the other; a lone brace, a dot at an edge and two dots together are
caught by different ones of these checks.
-/
import DesignTokens.Proofs.Document.Name
import DesignTokens.Proofs.Value.Reading

namespace DesignTokens.Alias

open Outcome

/-! ## The grammar -/

/-- A text that can stand between the dots of a reference. -/
def IsSegment (name : String) : Prop :=
  name ≠ "" ∧ ∀ c ∈ name.toList, c ≠ '{' ∧ c ≠ '}' ∧ c ≠ '.'

/-- The text refers by these names: they stand between single dots, in braces. -/
structure IsReference (text : String) (names : List String) : Prop where
  nonempty : names ≠ []
  segments : ∀ name ∈ names, IsSegment name
  eq : text = "\x7b" ++ String.intercalate "." names ++ "\x7d"

theorem isSegment_iff_fit {name : String} : IsSegment name ↔ Name.Fit name := by
  simp [IsSegment, Name.Fit, Name.isForbidden, List.find?_eq_none, and_assoc]

theorem intercalate_eq_join (names : List String) :
    String.intercalate "." names = Text.join separator names := by
  rw [← String.toList_inj, Text.join, String.toList_ofList]
  induction names with
  | nil => simp [Text.joinChars]
  | cons name names ih =>
    cases names with
    | nil => simp [Text.joinChars]
    | cons next names =>
      rw [String.intercalate_cons_cons, List.map_cons, List.map_cons, Text.joinChars]
      · simp [ih, separator]
      · exact List.cons_ne_nil _ _

theorem IsReference.eq_braced {text : String} {names : List String} (h : IsReference text names) :
    text = braced (Text.join separator names) := by
  rw [h.eq, intercalate_eq_join, braced]

theorem isReference_braced {dotted : String} (h : ∀ name ∈ segmentsOf dotted, IsSegment name) :
    IsReference (braced dotted) (segmentsOf dotted) := by
  refine ⟨?_, h, ?_⟩
  · simp [segmentsOf, Text.split, Text.splitChars_ne_nil]
  · rw [intercalate_eq_join, segmentsOf, Text.join_split, braced]

theorem IsReference.segmentsOf_join {text : String} {names : List String}
    (h : IsReference text names) : segmentsOf (Text.join separator names) = names :=
  Alias.segmentsOf_join h.nonempty fun name hname => isSegment_iff_fit.1 (h.segments name hname)

/-! ## What is read as an alias -/

/-- Between dots there is no dot, and no character that is not in the whole. -/
theorem isSegment_of_mem_segmentsOf {dotted name : String} (hname : name ∈ segmentsOf dotted)
    (hne : name.isEmpty = false) (hbraces : ∀ c ∈ dotted.toList, c ≠ '{' ∧ c ≠ '}') :
    IsSegment name := by
  obtain ⟨part, hpart, rfl⟩ := List.mem_map.1 hname
  refine ⟨by simpa using hne, fun c hc => ?_⟩
  rw [String.toList_ofList] at hc
  have hmem : c ∈ dotted.toList := by
    rw [← Text.joinChars_splitChars separator dotted.toList]
    exact mem_joinChars_of_mem hpart hc
  refine ⟨(hbraces c hmem).1, (hbraces c hmem).2, ?_⟩
  rintro rfl
  exact Text.notMem_of_mem_splitChars hpart hc

theorem parse?_braced_eq_some {dotted : String} {ref : Alias}
    (h : parse? (braced dotted) = some ref) :
    ref = .path dotted ∧ ∀ c ∈ dotted.toList, c ≠ '{' ∧ c ≠ '}' := by
  simp only [parse?, unbraced?_braced, Option.bind_eq_bind, Option.bind_some] at h
  split at h
  · cases h
  · next hchars =>
    cases h
    simp only [Bool.or_eq_true, List.any_eq_true, decide_eq_true_eq, not_or, not_exists,
      not_and] at hchars
    exact ⟨rfl, fun c hc => hchars.2 c hc⟩

theorem segments_of_ofBraced {dotted : String} {ref : Alias}
    (h : ofBraced (braced dotted) = .ok ref) :
    ref = .path dotted ∧ ∀ name ∈ segmentsOf dotted, IsSegment name := by
  rw [ofBraced] at h
  split at h
  · next dotted' hp =>
    obtain ⟨he, hbraces⟩ := parse?_braced_eq_some hp
    cases he
    split at h
    · cases h
    · next hempty =>
      cases h
      refine ⟨rfl, fun name hname => isSegment_of_mem_segmentsOf hname ?_ hbraces⟩
      simp only [List.any_eq_true, not_exists, not_and, Bool.not_eq_true] at hempty
      exact hempty name hname
  · cases h

/-- A text with a brace at the front is an alias, or it is an error that shows the text. -/
theorem ofBraced_eq_error {text : String} {e : ValueError} (h : ofBraced text = .error e) :
    e = .malformedReference text := by
  rw [ofBraced] at h
  split at h
  · split at h <;> cases h
    rfl
  · cases h
    rfl

theorem isBraced_iff {text : String} : isBraced text ↔ text.toList.head? = some '{' := by
  rw [isBraced]
  split <;> simp [*]

theorem ofJson?_of_braced {text : String} (h : isBraced text) :
    ofJson? (.string text) = (ofBraced text).map some := by
  rw [ofJson?, if_pos h]

/-- A text that is read as an alias is a reference, by the names of that alias. -/
theorem exists_isReference {text : String} {ref : Alias}
    (h : ofJson? (.string text) = .ok (some ref)) :
    ∃ names, IsReference text names ∧ ref = .path (Text.join separator names) := by
  obtain ⟨dotted, rfl, ht⟩ := eq_path_of_ofJson? h
  obtain rfl := Json.string.inj ht
  have hbraced : isBraced (braced dotted) := isBraced_iff.2 (by rw [toList_braced]; rfl)
  obtain ⟨ref, href, -⟩ := map_eq_ok_iff.1 ((ofJson?_of_braced hbraced).symm.trans h)
  obtain ⟨-, hsegments⟩ := segments_of_ofBraced href
  exact ⟨_, isReference_braced hsegments, by rw [segmentsOf, Text.join_split]⟩

theorem IsReference.ofJson? {text : String} {names : List String} (h : IsReference text names) :
    Alias.ofJson? (.string text) = .ok (some (.path (Text.join separator names))) := by
  have hfit : ∀ name ∈ segmentsOf (Text.join separator names), Name.Fit name := by
    rw [h.segmentsOf_join]
    exact fun name hname => isSegment_iff_fit.1 (h.segments name hname)
  have hspelled := (spelled_of_segments hfit).2
  rwa [display, ← h.eq_braced] at hspelled

/-! ## What is read as a value -/

theorem ofJson_eq_alias_iff {type : Option TokenType} {raw : Json} {ref : Alias} :
    TokenValue.ofJson type raw = .ok (.aliasTo ref) ↔ Alias.ofJson? raw = .ok (some ref) := by
  simp only [TokenValue.ofJson, bind_eq_ok_iff]
  constructor
  · rintro ⟨alias?, hread, h⟩
    cases alias? with
    | some ref' =>
      cases pure_eq_ok_iff.1 h
      exact hread
    | none =>
      cases type with
      | none => cases h
      | some t =>
        obtain ⟨lit, -, h⟩ := bind_eq_ok_iff.1 h
        cases pure_eq_ok_iff.1 h
  · exact fun h => ⟨some ref, h, rfl⟩

theorem ofJson_eq_error {type : Option TokenType} {raw : Json} {e : ValueError}
    (h : Alias.ofJson? raw = .error e) : TokenValue.ofJson type raw = .error e := by
  simp only [TokenValue.ofJson, h]
  rfl

/-- A text with a brace at the front that is no reference is an error. -/
theorem ofJson_malformed {type : Option TokenType} {text : String}
    (hbrace : text.toList.head? = some '{') (h : ¬ ∃ names, IsReference text names) :
    TokenValue.ofJson type (.string text) = .error (.malformedReference text) := by
  have hread := ofJson?_of_braced (isBraced_iff.2 hbrace)
  cases href : ofBraced text with
  | ok ref =>
    rw [href] at hread
    obtain ⟨names, hnames, -⟩ := exists_isReference hread
    exact absurd ⟨names, hnames⟩ h
  | error e =>
    rw [href] at hread
    rw [ofJson_eq_error hread, ofBraced_eq_error href]

/--
**The reference grammar is exact.** Under every type, a text is read as an alias
just if it is a reference; the names of the alias are then those of the
reference, and it is shown by the text again. Every other text with a brace at
the front is an error, and so no literal. And names that tokens and groups may
have are the names of a reference, if there is at least one.
-/
theorem reference_grammar (type : Option TokenType) :
    (∀ text, (∃ ref, TokenValue.ofJson type (.string text) = .ok (.aliasTo ref)) ↔
      ∃ names, IsReference text names) ∧
    (∀ text names, IsReference text names →
      ∃ ref, TokenValue.ofJson type (.string text) = .ok (.aliasTo ref) ∧
        ref.segments? = some names ∧ ref.display = text) ∧
    (∀ text : String, text.toList.head? = some '{' → (¬ ∃ names, IsReference text names) →
      TokenValue.ofJson type (.string text) = .error (.malformedReference text)) ∧
    ∀ names, names ≠ [] → (∀ name ∈ names, Name.check name = .ok ()) →
      ∃ text, IsReference text names := by
  have hread : ∀ text names, IsReference text names →
      ∃ ref, TokenValue.ofJson type (.string text) = .ok (.aliasTo ref) ∧
        ref.segments? = some names ∧ ref.display = text := by
    intro text names h
    refine ⟨_, ofJson_eq_alias_iff.2 h.ofJson?, ?_, ?_⟩
    · rw [segments?, h.segmentsOf_join]
    · rw [display, ← h.eq_braced]
  refine ⟨fun text => ⟨?_, ?_⟩, hread, fun _ => ofJson_malformed, fun names hne hnames => ?_⟩
  · rintro ⟨ref, href⟩
    obtain ⟨names, h, -⟩ := exists_isReference (ofJson_eq_alias_iff.1 href)
    exact ⟨names, h⟩
  · rintro ⟨names, h⟩
    obtain ⟨ref, href, -⟩ := hread text names h
    exact ⟨ref, href⟩
  · exact ⟨_, hne, fun name hname => isSegment_iff_fit.2 (Name.Valid.fit (hnames name hname)), rfl⟩

/-- Braces alone, doubled or in the middle, dots at the edges and side by side: no references. -/
theorem reference_grammar_edges :
    let type := some TokenType.fontFamily
    let malformed := ["\x7b", "\x7b\x7d", "\x7b\x7ba\x7d\x7d", "\x7ba\x7d.b\x7d", "\x7b.a\x7d",
      "\x7ba.\x7d", "\x7ba..b\x7d", "\x7ba\x7d "]
    (∃ ref, TokenValue.ofJson type (.string "\x7bä. .$root\x7d") = .ok (.aliasTo ref) ∧
      ref.segments? = some ["ä", " ", "$root"]) ∧
    (∀ text ∈ malformed,
      TokenValue.ofJson type (.string text) = .error (.malformedReference text)) ∧
    ∀ text ∈ malformed, ¬ ∃ names, IsReference text names := by
  intro type malformed
  have hread : IsReference "\x7bä. .$root\x7d" ["ä", " ", "$root"] :=
    ⟨by simp, by simp [IsSegment], by simp⟩
  have herror : ∀ text ∈ malformed,
      TokenValue.ofJson type (.string text) = .error (.malformedReference text) := by
    simp only [malformed, List.forall_mem_cons]
    exact ⟨rfl, rfl, rfl, rfl, rfl, rfl, rfl, rfl, nofun⟩
  obtain ⟨ref, href, hsegments, -⟩ := (reference_grammar type).2.1 _ _ hread
  refine ⟨⟨ref, href, hsegments⟩, herror, fun text htext hnames => ?_⟩
  obtain ⟨ref, href⟩ := ((reference_grammar type).1 text).2 hnames
  rw [herror text htext] at href
  cases href

end DesignTokens.Alias
