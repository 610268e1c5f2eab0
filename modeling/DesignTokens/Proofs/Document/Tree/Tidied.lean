/-
Trees put in order. The reader of a document puts a group's own token in front
of the other children and gives all of them new keys; what it makes of siblings
that were written in any order is the tree tidied so (`Entry.tidied`). A tree
that can be written is one that a reader can have given, once it is tidied.
-/
import DesignTokens.Document.Tree.Reader
import DesignTokens.Proofs.Document.Tree.Readable
import DesignTokens.Proofs.OrderKey.Ascending

namespace DesignTokens

/-! ## The own token first -/

/-- Named things in their order, but for those named `$root`, which come first. -/
def rootFirst {α : Type} (name : α → String) (l : List α) : List α :=
  l.filter (fun a => name a = rootTokenName) ++ l.filter (fun a => name a ≠ rootTokenName)

section

variable {α β : Type} {name : α → String} {l : List α}

theorem mem_rootFirst {a : α} : a ∈ rootFirst name l ↔ a ∈ l := by
  simp only [rootFirst, List.mem_append, List.mem_filter, decide_eq_true_eq]
  by_cases h : name a = rootTokenName <;> simp [h]

theorem map_rootFirst {name' : β → String} (f : β → α) (l : List β)
    (h : ∀ b, name (f b) = name' b) : (rootFirst name' l).map f = rootFirst name (l.map f) := by
  simp only [rootFirst, List.map_append, List.filter_map, Function.comp_def, h]

theorem length_rootFirst : (rootFirst name l).length = l.length := by
  have h := (List.filter_append_perm (fun a => name a = rootTokenName) l).length_eq
  simpa [rootFirst] using h

/-- Nothing moves where only the first can be `$root`. -/
theorem rootFirst_eq_self (h : ∀ a ∈ l.tail, name a ≠ rootTokenName) : rootFirst name l = l := by
  cases l with
  | nil => rfl
  | cons a l =>
    have hroots : l.filter (fun a => name a = rootTokenName) = [] :=
      List.filter_eq_nil_iff.2 fun b hb => by simpa using h b hb
    have hothers : l.filter (fun a => name a ≠ rootTokenName) = l :=
      List.filter_eq_self.2 fun b hb => by simpa using h b hb
    by_cases ha : name a = rootTokenName
    · rw [rootFirst, List.filter_cons_of_pos (by simpa using ha),
        List.filter_cons_of_neg (by simpa using ha), hroots, hothers]
      rfl
    · rw [rootFirst, List.filter_cons_of_neg (by simpa using ha),
        List.filter_cons_of_pos (by simpa using ha), hroots, hothers]
      rfl

/-- Under distinct names no other name comes twice, and `$root` does not come later. -/
theorem pairwise_rootFirst (hn : (l.map name).Nodup) :
    (rootFirst name l).Pairwise fun a b => name b ≠ name a ∧ name b ≠ rootTokenName := by
  have hne : l.Pairwise fun a b => name a ≠ name b := List.pairwise_map.1 hn
  refine List.pairwise_append.2 ⟨?_, ?_, fun a ha b hb => ?_⟩
  · refine (hne.filter _).imp_of_mem fun {a b} ha hb hab => ?_
    have hra : name a = rootTokenName := by simpa using (List.mem_filter.1 ha).2
    have hrb : name b = rootTokenName := by simpa using (List.mem_filter.1 hb).2
    exact absurd (hra.trans hrb.symm) hab
  · refine (hne.filter _).imp_of_mem fun {a b} _ hb hab => ⟨hab.symm, ?_⟩
    simpa using (List.mem_filter.1 hb).2
  · have hra : name a = rootTokenName := by simpa using (List.mem_filter.1 ha).2
    have hrb : name b ≠ rootTokenName := by simpa using (List.mem_filter.1 hb).2
    exact ⟨hra ▸ hrb, hrb⟩

end

/-- The reader puts a group's own value first, then a `$root` child, then the others. -/
theorem Tree.arrange_eq {ι : Type} (own : Option (Reading (Option (Entry ι))))
    (cs : List (String × Reading (Option (Entry ι)))) : arrange own cs =
      collect ((OrderKey.initial (own.toList.length + cs.length)).zip
        ((rootFirst Prod.fst (own.toList.map (rootTokenName, ·) ++ cs)).map (·.2))) := by
  have hlength : (rootFirst Prod.fst cs).length = cs.length := length_rootFirst
  rw [rootFirst, List.length_append] at hlength
  cases own with
  | none =>
    simp [arrange, rootFirst, List.partition_eq_filter_filter, Function.comp_def, ← hlength]
  | some r =>
    simp [arrange, rootFirst, List.partition_eq_filter_filter, Function.comp_def, ← hlength,
      Nat.add_comm]

/-! ## Trees -/

variable {ι : Type}

mutual

/-- An entry whose children, and theirs, stand as a reader puts them. -/
def Entry.tidied : Entry ι → Entry ι
  | .token tag t => .token tag t
  | .group tag g children => .group tag g
      ((OrderKey.initial children.length).zip (rootFirst Entry.name (entriesTidied children)))

/-- Siblings without keys, each of them tidied. -/
def entriesTidied : List (String × Entry ι) → List (Entry ι)
  | [] => []
  | (_, e) :: es => e.tidied :: entriesTidied es

end

/-- Siblings as a reader puts them, with the keys that it gives. -/
def forestTidied (es : Forest ι) : Forest ι :=
  (OrderKey.initial es.length).zip (rootFirst Entry.name (entriesTidied es))

@[simp] theorem Entry.name_tidied (e : Entry ι) : e.tidied.name = e.name := by
  cases e <;> rfl

@[simp] theorem Entry.content_tidied (e : Entry ι) : e.tidied.content = e.content := by
  cases e <;> rfl

theorem entriesTidied_eq_map (es : Forest ι) : entriesTidied es = es.map fun e => e.2.tidied := by
  induction es with
  | nil => rfl
  | cons e es ih => rw [entriesTidied, ih, List.map_cons]

theorem length_initial_tidied (es : Forest ι) : (OrderKey.initial es.length).length =
    (rootFirst Entry.name (entriesTidied es)).length := by
  rw [OrderKey.length_initial, length_rootFirst, entriesTidied_eq_map, List.length_map]

theorem map_snd_forestTidied (es : Forest ι) :
    (forestTidied es).map Prod.snd = rootFirst Entry.name (entriesTidied es) :=
  List.map_snd_zip (Nat.le_of_eq (length_initial_tidied es).symm)

theorem length_forestTidied (es : Forest ι) : (forestTidied es).length = es.length := by
  rw [forestTidied, List.length_zip, ← length_initial_tidied, Nat.min_self,
    OrderKey.length_initial]

theorem mem_forestTidied {es : Forest ι} {e : Entry ι} :
    (∃ order, (order, e) ∈ forestTidied es) ↔ ∃ order e', (order, e') ∈ es ∧ e = e'.tidied := by
  have hsnd : (∃ order, (order, e) ∈ forestTidied es) ↔ e ∈ (forestTidied es).map Prod.snd := by
    simp
  rw [hsnd, map_snd_forestTidied, mem_rootFirst, entriesTidied_eq_map, List.mem_map]
  simp only [Prod.exists, eq_comm (a := e)]

/-! ## Reading -/

theorem readable_zip {inherited : Option TokenType} {l : List (Entry ι)}
    (hr : ∀ e ∈ l, e.Readable inherited)
    (hl : l.Pairwise fun a b => b.name ≠ a.name ∧ b.name ≠ rootTokenName) {orders : List String}
    (ho : orders.Pairwise (· < ·)) : ForestReadable inherited (orders.zip l) := by
  induction l generalizing orders with
  | nil =>
    rw [List.zip_nil_right]
    trivial
  | cons e l ih =>
    cases orders with
    | nil => trivial
    | cons order orders =>
      obtain ⟨hl, hls⟩ := List.pairwise_cons.1 hl
      obtain ⟨ho, hos⟩ := List.pairwise_cons.1 ho
      refine ⟨hr e (List.mem_cons_self ..), fun e' he' => ?_,
        ih (fun e' he' => hr e' (List.mem_cons_of_mem _ he')) hls hos⟩
      obtain ⟨hk, hm⟩ := List.of_mem_zip he'
      exact ⟨(hl _ hm).1, (hl _ hm).2, ho _ hk⟩

theorem readable_zip_rootFirst {inherited : Option TokenType} {es : Forest ι}
    (h : ForestWritable inherited es) (hr : ∀ e ∈ entriesTidied es, e.Readable inherited) :
    ForestReadable inherited (forestTidied es) := by
  refine readable_zip (fun e he => hr e (mem_rootFirst.1 he)) (pairwise_rootFirst ?_)
    (OrderKey.pairwise_initial _)
  simpa [entriesTidied_eq_map, Function.comp_def] using (forestWritable_iff.1 h).2

mutual

theorem Entry.readable_tidied {inherited : Option TokenType} : (e : Entry ι) →
    e.Writable inherited → e.tidied.Readable inherited
  | .token _ _, h => h
  | .group _ _ children, h =>
    ⟨h.1, readable_zip_rootFirst h.2 (readable_entriesTidied children h.2)⟩

theorem readable_entriesTidied {inherited : Option TokenType} : (es : List (String × Entry ι)) →
    ForestWritable inherited es → ∀ e ∈ entriesTidied es, e.Readable inherited
  | [], _, _, he => nomatch he
  | (_, e) :: es, h, e', he => by
    rcases List.mem_cons.1 he with he | he
    · exact he ▸ Entry.readable_tidied e h.1
    · exact readable_entriesTidied es h.2.2 e' he

end

/-- A tidied tree is one that a reader can have given. -/
theorem readable_forestTidied {es : Forest ι} (h : RootWritable es) :
    RootReadable (forestTidied es) := by
  refine ⟨readable_zip_rootFirst h.forest (readable_entriesTidied es h.forest), fun e he => ?_⟩
  obtain ⟨order, e', he', ht⟩ := mem_forestTidied.1 ⟨e.1, he⟩
  rw [ht, Entry.name_tidied]
  exact h.rootless _ he'

end DesignTokens
