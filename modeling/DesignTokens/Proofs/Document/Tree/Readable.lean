/-
The trees that a reader of documents gives. Names are distinct among siblings
and fit for a path, but for the `$root` token of a group, which comes first;
keys ascend; and every value can be read under the type that comes down to it.

A writer takes more than that: siblings in any order and with any keys
(`Entry.Writable`). What it makes of such a tree, with minimal types or without,
is given here by a plain recursion (`Entry.toJson`). It looks neither at tags
nor at order keys.
-/
import DesignTokens.Document.Tree.Writer
import DesignTokens.Proofs.Document.Name
import DesignTokens.Proofs.Value.ReadBack

namespace DesignTokens

open DesignTokens.Tree

variable {ι : Type}

/-- A value that can be read under a type. -/
def TokenValue.Readable (type : Option TokenType) (v : TokenValue) : Prop :=
  ∃ raw, TokenValue.ofJson type raw = .ok v

mutual

/-- An entry that a reader can have given, below groups that pass down a type. -/
def Entry.Readable (inherited : Option TokenType) : Entry ι → Prop
  | .token _ t => (t.name = rootTokenName ∨ Name.Valid t.name) ∧
      t.value.Readable (t.declaredType.or inherited)
  | .group _ g children => Name.Valid g.name ∧
      ForestReadable (g.declaredType.or inherited) children

/-- Siblings that a reader can have given. -/
def ForestReadable (inherited : Option TokenType) : List (String × Entry ι) → Prop
  | [] => True
  | (order, e) :: es => e.Readable inherited ∧
      (∀ e' ∈ es, e'.2.name ≠ e.name ∧ e'.2.name ≠ rootTokenName ∧ order < e'.1) ∧
      ForestReadable inherited es

end

mutual

/-- An entry as JSON below groups that pass down a type, with each alias as it is shown. -/
def Entry.toJson (minimal : Bool) (inherited : Option TokenType) : Entry ι → Json
  | .token _ t => .object (typeMember (tokenType minimal t inherited)
      ++ (Key.value, t.value.toJson) :: noteMembers t.notes)
  | .group _ g children => .object (typeMember (writtenType minimal g.declaredType inherited)
      ++ noteMembers g.notes ++ forestMembers minimal (g.declaredType.or inherited) children)

/-- Siblings as members by name. -/
def forestMembers (minimal : Bool) (inherited : Option TokenType) :
    List (String × Entry ι) → Members
  | [] => []
  | (_, e) :: es => (e.name, e.toJson minimal inherited) :: forestMembers minimal inherited es

end

mutual

/-- An entry that can be written so that it is read again, below groups that pass down a type. -/
def Entry.Writable (inherited : Option TokenType) : Entry ι → Prop
  | .token _ t => (t.name = rootTokenName ∨ Name.Valid t.name) ∧
      t.value.Readable (t.declaredType.or inherited)
  | .group _ g children => Name.Valid g.name ∧
      ForestWritable (g.declaredType.or inherited) children

/-- Siblings that can be written so, in whatever order they stand. -/
def ForestWritable (inherited : Option TokenType) : List (String × Entry ι) → Prop
  | [] => True
  | (_, e) :: es => e.Writable inherited ∧ (∀ e' ∈ es, e'.2.name ≠ e.name) ∧
      ForestWritable inherited es

end

/-- The top of a document that can be written, where no token is a group's own. -/
structure RootWritable (es : List (String × Entry ι)) : Prop where
  forest : ForestWritable none es
  rootless : ∀ e ∈ es, e.2.name ≠ rootTokenName

/-- The top of a document that a reader can have given, where no token is a group's own. -/
structure RootReadable (es : List (String × Entry ι)) : Prop where
  forest : ForestReadable none es
  rootless : ∀ e ∈ es, e.2.name ≠ rootTokenName

/-! ## Types -/

/-- A type that is left out comes down from above. -/
theorem writtenType_or (minimal : Bool) (declared inherited : Option TokenType) :
    (writtenType minimal declared inherited).or inherited = declared.or inherited := by
  unfold writtenType
  split
  · next h =>
    simp only [Bool.and_eq_true, decide_eq_true_eq] at h
    rw [h.2]
    cases inherited <;> rfl
  · rfl

theorem writtenType_writtenType (minimal : Bool) (declared inherited : Option TokenType) :
    writtenType minimal (writtenType minimal declared inherited) inherited =
      writtenType minimal declared inherited := by
  by_cases h : minimal = true ∧ declared = inherited
  · simp [writtenType, h]
  · simp [writtenType, h]

/-- A token that can be read has no literal without a type. -/
theorem tokenType_eq_writtenType {minimal : Bool} {t : Token} {inherited : Option TokenType}
    (h : t.value.Readable (t.declaredType.or inherited)) :
    tokenType minimal t inherited = writtenType minimal t.declaredType inherited := by
  obtain ⟨raw, hraw⟩ := h
  unfold tokenType
  split
  · next lit hd hv =>
    rw [hd, hv] at hraw
    cases TokenValue.type_eq_of_ofJson hraw
  · rfl

/-! ## Names -/

mutual

theorem Entry.Readable.writable {inherited : Option TokenType} : {e : Entry ι} →
    e.Readable inherited → e.Writable inherited
  | .token _ _, h => h
  | .group _ _ _, h => ⟨h.1, h.2.writable⟩

theorem ForestReadable.writable {inherited : Option TokenType} : {es : List (String × Entry ι)} →
    ForestReadable inherited es → ForestWritable inherited es
  | [], _ => trivial
  | (_, _) :: _, h => ⟨h.1.writable, fun e' he' => (h.2.1 e' he').1, h.2.2.writable⟩

end

theorem RootReadable.writable {es : List (String × Entry ι)} (h : RootReadable es) :
    RootWritable es :=
  ⟨h.forest.writable, h.rootless⟩

theorem Entry.Writable.name_cases {inherited : Option TokenType} {e : Entry ι}
    (h : e.Writable inherited) : e.name = rootTokenName ∨ Name.Valid e.name := by
  cases e with
  | token tag t => exact h.1
  | group tag g children => exact .inr h.1

theorem Entry.Writable.isChild {inherited : Option TokenType} {e : Entry ι}
    (h : e.Writable inherited) : Name.isChild e.name := by
  rcases h.name_cases with hr | hv
  · rw [hr]
    decide
  · simp [Name.isChild, hv.not_reserved]

/-- Siblings can be written if each of them can be, and no name comes twice. -/
theorem forestWritable_iff {inherited : Option TokenType} {es : List (String × Entry ι)} :
    ForestWritable inherited es ↔
      (∀ e ∈ es, e.2.Writable inherited) ∧ (es.map fun e => e.2.name).Nodup := by
  induction es with
  | nil => simp [ForestWritable]
  | cons e es ih =>
    rw [ForestWritable, ih, List.forall_mem_cons, List.map_cons, List.nodup_cons]
    constructor
    · rintro ⟨he, hne, hes, hn⟩
      refine ⟨⟨he, hes⟩, fun hm => ?_, hn⟩
      obtain ⟨e', he', heq⟩ := List.mem_map.1 hm
      exact hne e' he' heq
    · rintro ⟨⟨he, hes⟩, hm, hn⟩
      exact ⟨he, fun e' he' heq => hm (List.mem_map.2 ⟨e', he', heq⟩), hes, hn⟩

theorem keys_forestMembers (minimal : Bool) (inherited : Option TokenType)
    (es : List (String × Entry ι)) :
    Dict.keys (forestMembers minimal inherited es) = es.map fun e => e.2.name := by
  induction es with
  | nil => rfl
  | cons e es ih => rw [forestMembers, Dict.keys_cons, ih, List.map_cons]

/-- Every member that siblings are written as is a child. -/
theorem ForestWritable.isChild_of_mem {minimal : Bool} {inherited : Option TokenType}
    {es : List (String × Entry ι)} (h : ForestWritable inherited es) {k : String}
    (hk : k ∈ Dict.keys (forestMembers minimal inherited es)) : Name.isChild k := by
  rw [keys_forestMembers] at hk
  obtain ⟨e, he, hn⟩ := List.mem_map.1 hk
  exact hn ▸ ((forestWritable_iff.1 h).1 e he).isChild

/-! ## The members of an entry's own -/

theorem eq_of_mem_keys_typeMember (t : Option TokenType) :
    ∀ k ∈ Dict.keys (typeMember t), k = Key.type := by
  cases t <;> simp [typeMember, Json.optionalMember]

theorem of_mem_keys_noteMembers (notes : Notes) : ∀ k ∈ Dict.keys (noteMembers notes),
    k = Key.description ∨ k = Key.deprecated ∨ k = Key.extensions := by
  obtain ⟨description, deprecated, extensions⟩ := notes
  cases description <;> cases deprecated <;> cases extensions <;>
    simp [noteMembers, Json.optionalMember]

end DesignTokens
