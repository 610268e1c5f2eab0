/-
Circles of references, and the reports of them.

A token from which a circle can be reached does not resolve (`not_resolves`):
what resolves is derived, and below a derived token references are
well-founded. In the other direction a reported circle is there
(`exists_circle_of_walk`): the tokens that wait on the chain lead from the
first one along references to the token that comes again, and the report takes
the part of the chain from that token on.

Resolution and the search for a type walk in the same way and report in the
same words. `Reports` is what the two have in common, one step of such a walk.
-/
import Mathlib.Data.List.Chain
import DesignTokens.Proofs.Resolution.Derivation
import DesignTokens.Proofs.Value.Traversal
import DesignTokens.Store.Batch

namespace DesignTokens.Store

variable {s : Store}

/-- Distinct tokens, each of which refers to the next one, and the last to the first. -/
structure IsCircle (s : Store) (first : NodeId) (rest : List NodeId) : Prop where
  distinct : (first :: rest).Nodup
  linked : List.IsChain s.RefersTo (first :: rest ++ [first])

/-! ## No token resolves into a circle -/

theorem RefersTo.mem_ids {a b : NodeId} (h : s.RefersTo a b) : a ∈ s.ids := by
  obtain ⟨n, _, _, _, hn, _⟩ := h
  exact mem_ids_of_node? hn

theorem not_circle_of_acc {id c : NodeId} (h : Acc (fun b a => s.RefersTo a b) id)
    (hc : Relation.ReflTransGen s.RefersTo id c) : ¬ Relation.TransGen s.RefersTo c c := by
  induction hc using Relation.ReflTransGen.head_induction_on with
  | refl => exact Walk.not_transGen_self_of_acc h
  | head hstep _ ih => exact ih (h.inv hstep)

theorem error_of_circle {id c : NodeId} (hc : Relation.ReflTransGen s.RefersTo id c)
    (hcircle : Relation.TransGen s.RefersTo c c) : ∃ e, s.resolve id = .error e := by
  cases hr : s.resolve id with
  | error e => exact ⟨e, rfl⟩
  | ok r =>
    have hy : s.Yields id r := yields_of_resolveFrom hr
    exact absurd hcircle (not_circle_of_acc hy.acc hc)

/-! ## What a walk reports -/

/--
A walk along references: it reports a circle only at a token that waits on the
chain already, or because it does at a token referred to, with this one waiting.
-/
def Reports {α : Type} (s : Store) (walk : List NodeId → NodeId → Except ResolutionError α) : Prop :=
  ∀ chain id paths, walk chain id = .error (.circle paths) →
    (id ∈ chain ∧ s.circle chain id = .circle paths) ∨
      id ∉ chain ∧ ∃ m, s.RefersTo id m ∧ walk (chain ++ [id]) m = .error (.circle paths)

theorem circle_of_mem {chain : List NodeId} {id : NodeId} (hid : id ∈ chain) (hnd : chain.Nodup)
    (hlink : List.IsChain s.RefersTo (chain ++ [id])) :
    ∃ rest, s.IsCircle id rest ∧ s.circle chain id = .circle ((id :: rest ++ [id]).map s.displayOf) := by
  obtain ⟨before, rest, rfl, hbefore⟩ := List.eq_append_cons_of_mem hid
  have hdrop : (before ++ id :: rest).dropWhile (· ≠ id) = id :: rest := by
    rw [List.dropWhile_append_of_pos, List.dropWhile_cons_of_neg (by simp)]
    intro c hc
    have hne : c ≠ id := fun he => hbefore (he ▸ hc)
    exact decide_eq_true hne
  refine ⟨rest, ⟨(List.nodup_append.1 hnd).2.1, ?_⟩, ?_⟩
  · rw [List.append_assoc] at hlink
    exact hlink.right_of_append
  · rw [circle, hdrop]

/-- The induction is on the tokens that are not yet on the chain. -/
theorem exists_circle_of_walk {α : Type}
    {walk : List NodeId → NodeId → Except ResolutionError α} (hwalk : s.Reports walk)
    {start : NodeId} {paths : List String} (chain : List NodeId) (id : NodeId) (hnd : chain.Nodup)
    (hlink : List.IsChain s.RefersTo (chain ++ [id]))
    (hreach : ∀ c ∈ chain ++ [id], Relation.ReflTransGen s.RefersTo start c)
    (h : walk chain id = .error (.circle paths)) :
    ∃ n rest, Relation.ReflTransGen s.RefersTo start n ∧ s.IsCircle n rest ∧
      paths = (n :: rest ++ [n]).map s.displayOf := by
  rcases hwalk chain id paths h with ⟨hid, hpaths⟩ | ⟨hid, m, hm, hrest⟩
  · obtain ⟨rest, hcircle, hreport⟩ := circle_of_mem hid hnd hlink
    rw [hreport] at hpaths
    cases hpaths
    exact ⟨id, rest, hreach id (by simp), hcircle, rfl⟩
  · have hlt : s.unvisited (chain ++ [id]) < s.unvisited chain :=
      unvisited_append_lt hm.mem_ids hid
    refine exists_circle_of_walk hwalk (chain ++ [id]) m ?_ ?_ ?_ hrest
    · refine List.nodup_append.2 ⟨hnd, by simp, fun a ha b hb he => hid ?_⟩
      rwa [← List.mem_singleton.1 hb, ← he]
    · refine hlink.append (List.isChain_singleton m) ?_
      simpa using hm
    · intro c hc
      rcases List.mem_append.1 hc with hc | hc
      · exact hreach c hc
      · exact List.mem_singleton.1 hc ▸ (hreach id (by simp)).tail hm
termination_by s.unvisited chain

theorem exists_circle_of_reports {α : Type}
    {walk : List NodeId → NodeId → Except ResolutionError α} (hwalk : s.Reports walk)
    {id : NodeId} {paths : List String} (h : walk [] id = .error (.circle paths)) :
    ∃ n rest, Relation.ReflTransGen s.RefersTo id n ∧ s.IsCircle n rest ∧
      paths = (n :: rest ++ [n]).map s.displayOf := by
  refine exists_circle_of_walk hwalk [] id List.nodup_nil (List.isChain_singleton id) ?_ h
  intro c hc
  exact List.mem_singleton.1 hc ▸ .refl

/-! ## The two walks -/

theorem tokenNode_ne_circle {id : NodeId} {paths : List String} :
    s.tokenNode id ≠ .error (.circle paths) := by
  unfold tokenNode
  split
  · simp
  · split <;> simp

theorem target_ne_circle {ref : Alias} {holder : NodeId} {paths : List String} :
    s.target ref holder ≠ .error (.circle paths) := by
  simp only [target]
  split <;> simp

theorem checkType_ne_circle {id : NodeId} {r : Resolved} {paths : List String} :
    s.checkType id r ≠ .error (.circle paths) := by
  unfold checkType
  split <;> simp

theorem fieldContent_ne_circle {holder target : NodeId} {k : FieldKind} {ref : Alias} {r : Resolved}
    {paths : List String} : s.fieldContent holder target k ref r ≠ .error (.circle paths) := by
  unfold fieldContent
  split
  · simp
  · split <;> simp

/-- The circle that a field reports is one that is found at the target of its alias. -/
theorem of_fillField_eq_circle {chain : List NodeId} {id : NodeId} {k : FieldKind} {ref : Alias}
    {paths : List String} (h : s.fillField chain id k ref = .error (.circle paths)) :
    ∃ m, s.target ref id = .ok m ∧ s.resolveFrom chain m.id = .error (.circle paths) := by
  rw [fillField, Outcome.bind_eq_error_iff] at h
  rcases h with h | ⟨m, hm, h⟩
  · exact absurd h target_ne_circle
  rcases Outcome.bind_eq_error_iff.1 h with h | ⟨r, _, h⟩
  · exact ⟨m, hm, h⟩
  · exact absurd h fieldContent_ne_circle

theorem reports_resolveFrom : s.Reports s.resolveFrom := by
  intro chain id paths h
  cases hnt : s.tokenNode id with
  | error e =>
    rw [resolveFrom_of_error hnt] at h
    cases h
    exact absurd hnt tokenNode_ne_circle
  | ok nt =>
    obtain ⟨n, t⟩ := nt
    obtain ⟨hn, ht⟩ := tokenNode_eq_ok_iff.1 hnt
    by_cases hc : id ∈ chain
    · rw [resolveFrom_of_mem hn ht hc] at h
      exact .inl ⟨hc, Except.error.inj h⟩
    refine .inr ⟨hc, ?_⟩
    cases hv : t.value with
    | aliasTo ref =>
      rw [resolveFrom_aliasTo hn ht hc hv, Outcome.bind_eq_error_iff] at h
      rcases h with h | ⟨m, hm, h⟩
      · exact absurd h target_ne_circle
      rcases Outcome.bind_eq_error_iff.1 h with h | ⟨q, _, h⟩
      · exact ⟨m.id, ⟨n, t, ref, m, hn, ht, by simp [hv, TokenValue.aliases], hm, rfl⟩, h⟩
      · exact absurd h checkType_ne_circle
    | literal lit =>
      rw [resolveFrom_literal hn ht hc hv] at h
      cases ho : s.ownType n with
      | none => simp [ho] at h
      | some type =>
        simp only [ho, Outcome.bind_eq_error_iff] at h
        rcases h with h | ⟨value, _, h⟩
        · obtain ⟨k, ref, href, hk⟩ := Literal.exists_of_mapFields_error h
          obtain ⟨m, hm, h⟩ := of_fillField_eq_circle hk
          exact ⟨m.id, ⟨n, t, ref, m, hn, ht, by rwa [hv], hm, rfl⟩, h⟩
        · exact absurd h checkType_ne_circle

theorem reports_typeFrom : s.Reports s.typeFrom := by
  intro chain id paths h
  rw [typeFrom] at h
  split at h
  · next e hnt =>
    cases h
    exact absurd hnt tokenNode_ne_circle
  next n t hnt =>
  obtain ⟨hn, ht⟩ := tokenNode_eq_ok_iff.1 hnt
  split at h
  · cases h
  split at h
  · cases h
  next ref hv =>
  split at h
  · next hc => exact .inl ⟨hc, Except.error.inj h⟩
  next hc =>
  refine .inr ⟨hc, ?_⟩
  rcases Outcome.bind_eq_error_iff.1 h with h | ⟨m, hm, h⟩
  · exact absurd h target_ne_circle
  · exact ⟨m.id, ⟨n, t, ref, m, hn, ht, by simp [hv, TokenValue.aliases], hm, rfl⟩, h⟩

/-- **Reports of circles are sound and complete.** A token from which a circle
of references can be reached does not resolve. And where resolution, or the
search for a type, reports a circle, there is one: distinct tokens, the first
of them within reach, each of which holds an alias to the next and the last an
alias to the first; the report gives their paths and repeats that of the first. -/
theorem circles_reported (s : Store) (id : NodeId) :
    (∀ c, Relation.ReflTransGen s.RefersTo id c → Relation.TransGen s.RefersTo c c →
      ∃ e, s.resolve id = .error e) ∧
    ∀ paths, s.resolve id = .error (.circle paths) ∨ s.typeOf id = .error (.circle paths) →
      ∃ n rest, Relation.ReflTransGen s.RefersTo id n ∧ s.IsCircle n rest ∧
        paths = (n :: rest ++ [n]).map s.displayOf := by
  refine ⟨fun c hc hcircle => error_of_circle hc hcircle, fun paths h => ?_⟩
  rcases h with h | h
  · exact exists_circle_of_reports reports_resolveFrom h
  · exact exists_circle_of_reports reports_typeFrom h

/-- A stroke with two dashes: the first one has a length, the other is caught in a circle. -/
def knot : Store :=
  let token (id : String) (parent : Option NodeId) (type : Option TokenType) (value : TokenValue) :
      Node := ⟨⟨id⟩, parent, "a0", .token ⟨id, .none, type, value⟩⟩
  let stroke : Literal := .strokeStyle
    (.dashed [.aliasTo (.id ⟨"free"⟩), .aliasTo (.path "gap.in")] .round)
  ofNodes [token "line" none (some .strokeStyle) (.literal stroke),
    token "free" none (some .dimension) (.literal (.dimension ⟨.integer 2, .px⟩)),
    ⟨⟨"gap"⟩, none, "a0", .group ⟨"gap", .none, none⟩⟩,
    token "in" (some ⟨"gap"⟩) none (.aliasTo (.path "gap.out")),
    token "out" (some ⟨"gap"⟩) none (.aliasTo (.id ⟨"in"⟩))]

/-- The stroke is not part of the circle that is reported for it. -/
theorem circles_reported_knot :
    knot.resolve ⟨"line"⟩ = .error (.circle ["gap.in", "gap.out", "gap.in"]) ∧
    ∃ n rest, Relation.ReflTransGen knot.RefersTo ⟨"line"⟩ n ∧ knot.IsCircle n rest ∧
      ["gap.in", "gap.out", "gap.in"] = (n :: rest ++ [n]).map knot.displayOf :=
  have hreport : knot.resolve ⟨"line"⟩ = .error (.circle ["gap.in", "gap.out", "gap.in"]) := by
    decide +kernel
  ⟨hreport, (circles_reported knot ⟨"line"⟩).2 _ (.inl hreport)⟩

end DesignTokens.Store
