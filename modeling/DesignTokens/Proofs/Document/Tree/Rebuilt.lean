/-
A tree that has come back from its written document (`forestRebuilt`). It can be
read again, it is written as the same members, and its nodes are those that the
tree had before but for their keys and the types that were left out. So the
second document is the first, and nothing changes any more after one round.

Keys are given to siblings by position: each fact is proved for any list of keys
of the right length, or of any length where keys only have to ascend.
-/
import DesignTokens.Proofs.Document.Inheritance
import DesignTokens.Proofs.Document.Tree.Nodes
import DesignTokens.Proofs.Document.Tree.ReadBack

namespace DesignTokens

open DesignTokens.Tree

variable {ι : Type}

@[simp] theorem Entry.name_rebuilt (minimal : Bool) (place : Pointer.Path)
    (inherited : Option TokenType) (e : Entry ι) :
    (e.rebuilt minimal place inherited).name = e.name := by
  cases e <;> rfl

theorem mem_zip_rebuilt {minimal : Bool} {place : Pointer.Path} {inherited : Option TokenType}
    {es : List (String × Entry ι)} {orders : List String} {e' : String × Entry Pointer.Path}
    (h : e' ∈ orders.zip (entriesRebuilt minimal place inherited es)) :
    e'.1 ∈ orders ∧ ∃ e ∈ es, e'.2.name = e.2.name := by
  obtain ⟨ho, he⟩ := List.of_mem_zip h
  rw [entriesRebuilt_eq_map] at he
  obtain ⟨e, he, hr⟩ := List.mem_map.1 he
  exact ⟨ho, e, he, by rw [← hr, Entry.name_rebuilt]⟩

/-! ## Reading again -/

mutual

theorem Entry.readable_rebuilt (minimal : Bool) (place : Pointer.Path)
    {inherited : Option TokenType} : (e : Entry ι) → e.Readable inherited →
    (e.rebuilt minimal place inherited).Readable inherited
  | .token _ t, h => by
    refine ⟨h.1, ?_⟩
    show TokenValue.Readable ((writtenType minimal t.declaredType inherited).or inherited) t.value
    rw [writtenType_or]
    exact h.2
  | .group _ g children, h => by
    refine ⟨h.1, ?_⟩
    show ForestReadable ((writtenType minimal g.declaredType inherited).or inherited) _
    rw [writtenType_or]
    exact readable_zip_rebuilt minimal place children h.2 (OrderKey.pairwise_initial _)

theorem readable_zip_rebuilt (minimal : Bool) (place : Pointer.Path)
    {inherited : Option TokenType} : (es : List (String × Entry ι)) → ForestReadable inherited es →
    {orders : List String} → orders.Pairwise (· < ·) →
    ForestReadable inherited (orders.zip (entriesRebuilt minimal place inherited es))
  | [], _, _, _ => by
    rw [entriesRebuilt, List.zip_nil_right]
    trivial
  | _ :: _, _, [], _ => trivial
  | (_, e) :: es, h, order :: orders, ho => by
    obtain ⟨ho, hos⟩ := List.pairwise_cons.1 ho
    refine ⟨Entry.readable_rebuilt minimal _ e h.1, fun e' he' => ?_,
      readable_zip_rebuilt minimal place es h.2.2 hos⟩
    obtain ⟨hk, a, ha, hn⟩ := mem_zip_rebuilt he'
    rw [hn, Entry.name_rebuilt]
    exact ⟨(h.2.1 a ha).1, (h.2.1 a ha).2.1, ho _ hk⟩

end

theorem readable_forestRebuilt (minimal : Bool) (place : Pointer.Path)
    {es : List (String × Entry ι)} (h : RootReadable es) :
    RootReadable (forestRebuilt minimal place none es) := by
  refine ⟨readable_zip_rebuilt minimal place es h.forest (OrderKey.pairwise_initial _), ?_⟩
  intro e' he'
  obtain ⟨-, e, he, hn⟩ := mem_zip_rebuilt he'
  rw [hn]
  exact h.rootless e he

/-! ## Writing again -/

mutual

theorem Entry.toJson_rebuilt (minimal : Bool) (place : Pointer.Path)
    {inherited : Option TokenType} : (e : Entry ι) → e.Readable inherited →
    (e.rebuilt minimal place inherited).toJson minimal inherited = e.toJson minimal inherited
  | .token _ t, h => by
    have hr := (Entry.readable_rebuilt minimal place (.token () t) h).2
    rw [Entry.rebuilt, Entry.toJson, Entry.toJson, tokenType_eq_writtenType hr,
      tokenType_eq_writtenType h.2, writtenType_writtenType]
  | .group _ g children, h => by
    rw [Entry.rebuilt, Entry.toJson, Entry.toJson, writtenType_writtenType, writtenType_or,
      forestMembers_zip_rebuilt minimal place children h.2 (OrderKey.length_initial _)]

theorem forestMembers_zip_rebuilt (minimal : Bool) (place : Pointer.Path)
    {inherited : Option TokenType} : (es : List (String × Entry ι)) → ForestReadable inherited es →
    {orders : List String} → orders.length = es.length →
    forestMembers minimal inherited (orders.zip (entriesRebuilt minimal place inherited es)) =
      forestMembers minimal inherited es
  | [], _, _, _ => by
    rw [entriesRebuilt, List.zip_nil_right]
    rfl
  | (_, e) :: es, h, order :: orders, hl => by
    rw [entriesRebuilt, List.zip_cons_cons, forestMembers, forestMembers, Entry.name_rebuilt,
      Entry.toJson_rebuilt minimal _ e h.1,
      forestMembers_zip_rebuilt minimal place es h.2.2 (Nat.succ.inj hl)]

end

/-- What has come back is written as before. -/
theorem forestMembers_forestRebuilt (minimal : Bool) (place : Pointer.Path)
    {inherited : Option TokenType} {es : List (String × Entry ι)} (h : ForestReadable inherited es) :
    forestMembers minimal inherited (forestRebuilt minimal place inherited es) =
      forestMembers minimal inherited es :=
  forestMembers_zip_rebuilt minimal place es h (OrderKey.length_initial _)

/-! ## Nodes -/

mutual

theorem Entry.writtenAs_rebuilt (minimal : Bool) (place : Pointer.Path)
    (names : List String) (p : Option NodeId) (inherited : Option TokenType) {next next' : Grove}
    (hnext : WrittenAs minimal (next.typed p inherited) (next'.typed p inherited))
    (order order' : String) : (e : Entry ι) →
    WrittenAs minimal ((e.grove names order next).typed p inherited)
      (((e.rebuilt minimal place inherited).grove names order' next').typed p inherited)
  | .token _ t => .cons rfl hnext
  | .group _ g children => by
    refine .cons rfl (.append ?_ hnext)
    show WrittenAs minimal _ (Grove.typed _ ((writtenType minimal g.declaredType inherited).or inherited) _)
    rw [writtenType_or]
    exact writtenAs_zip_rebuilt minimal place _ _ _ children (OrderKey.length_initial _)

theorem writtenAs_zip_rebuilt (minimal : Bool) (place : Pointer.Path)
    (names : List String) (p : Option NodeId) (inherited : Option TokenType) :
    (es : List (String × Entry ι)) → {orders : List String} → orders.length = es.length →
    WrittenAs minimal ((forestGrove names es).typed p inherited)
      ((forestGrove names (orders.zip (entriesRebuilt minimal place inherited es))).typed p inherited)
  | [], _, _ => by
    rw [entriesRebuilt, List.zip_nil_right]
    rfl
  | (order, e) :: es, order' :: orders, hl =>
    Entry.writtenAs_rebuilt minimal _ names p inherited
      (writtenAs_zip_rebuilt minimal place names p inherited es (Nat.succ.inj hl)) order order' e

end

/-- The nodes of a tree come back but for their keys and the types that are left out. -/
theorem writtenAs_forestRebuilt (minimal : Bool) (place : Pointer.Path) (names : List String)
    (p : Option NodeId) (inherited : Option TokenType) (es : List (String × Entry ι)) :
    WrittenAs minimal ((forestGrove names es).typed p inherited)
      ((forestGrove names (forestRebuilt minimal place inherited es)).typed p inherited) :=
  writtenAs_zip_rebuilt minimal place names p inherited es (OrderKey.length_initial _)

/-! ## Places -/

mutual

theorem Entry.id_eq_format_rebuilt {minimal : Bool} {names : List String}
    {inherited : Option TokenType} {p : Option NodeId} {before : Nat} {order : String} {x : Placed} :
    (e : Entry ι) →
    x ∈ (e.rebuilt minimal (names ++ [e.name]) inherited).nodes .path p names before order →
    x.node.id = ⟨Pointer.format x.place⟩
  | .token _ t, hx => by
    rw [List.mem_singleton.1 hx]
    rfl
  | .group _ g children, hx => by
    rcases List.mem_cons.1 hx with he | hx
    · rw [he]
      rfl
    · exact id_eq_format_zip_rebuilt children hx

/-- Below the root of a document the id of a node is the text of its place. -/
theorem id_eq_format_zip_rebuilt {minimal : Bool} {names : List String}
    {inherited : Option TokenType} {p : Option NodeId} {before : Nat} {x : Placed} :
    (es : List (String × Entry ι)) → {orders : List String} →
    x ∈ forestNodes .path p names before
      (orders.zip (entriesRebuilt minimal names inherited es)) →
    x.node.id = ⟨Pointer.format x.place⟩
  | [], orders, hx => by
    rw [entriesRebuilt, List.zip_nil_right] at hx
    cases hx
  | _ :: _, [], hx => nomatch hx
  | (_, e) :: es, _ :: _, hx => by
    rcases List.mem_append.1 hx with hx | hx
    · exact Entry.id_eq_format_rebuilt e hx
    · exact id_eq_format_zip_rebuilt es hx

end

end DesignTokens
