/-
Resolution in two stores side by side. One store tracks another on a set of
tokens if each of these stands in it, under an id of its own, with the same
value and the same type of its own, is called by the same path, and if its
aliases lead to the tokens that stand for its targets, which are in the set
again. Then a token and the one that stands for it resolve to the same result,
a value or an error, and have the same type, or none for the same reason.

Nor does it matter what waits on the chain before them, as long as it stands
for no token of the set: none of it comes again.
-/
import DesignTokens.Proofs.Resolution.Step
import DesignTokens.Proofs.Value.Traversal

namespace DesignTokens.Store

/-- The tokens of a set stand in another store under other ids, and so do the targets of their
aliases. -/
structure Tracks (P : NodeId → Prop) (f : NodeId → NodeId) (s t : Store) : Prop where
  injective : ∀ a b, P a → P b → f a = f b → a = b
  displayOf : ∀ id, P id → t.displayOf (f id) = s.displayOf id
  error : ∀ id e, P id → s.tokenNode id = .error e → t.tokenNode (f id) = .error e
  token : ∀ id n u, P id → s.node? id = some n → n.content = .token u →
    ∃ m v, t.node? (f id) = some m ∧ m.content = .token v ∧ v.value = u.value ∧
      t.ownType m = s.ownType n
  target : ∀ id n u, P id → s.node? id = some n → n.content = .token u →
    ∀ ref ∈ u.value.aliases,
      (∃ e, s.target ref id = .error e ∧ t.target ref (f id) = .error e) ∨
      ∃ a b, s.target ref id = .ok a ∧ t.target ref (f id) = .ok b ∧ b.id = f a.id ∧ P a.id

namespace Tracks

variable {P : NodeId → Prop} {f : NodeId → NodeId} {s t : Store} (h : Tracks P f s t)

include h

theorem checkType {id : NodeId} (hid : P id) (r : Resolved) :
    t.checkType (f id) r = s.checkType id r := by
  rw [Store.checkType, Store.checkType, h.displayOf id hid]

theorem fieldContent {holder target : NodeId} (hholder : P holder) (htarget : P target)
    (k : FieldKind) (ref : Alias) (r : Resolved) :
    t.fieldContent (f holder) (f target) k ref r = s.fieldContent holder target k ref r := by
  rw [Store.fieldContent, Store.fieldContent, h.displayOf _ hholder, h.displayOf _ htarget]

section

variable {waiting : List NodeId} (hw : ∀ id, P id → f id ∉ waiting) {chain : List NodeId}
  (hchain : ∀ c ∈ chain, P c) {id : NodeId} (hid : P id)

include hchain hid

theorem mem_map_iff : f id ∈ chain.map f ↔ id ∈ chain := by
  refine ⟨fun hmem => ?_, List.mem_map_of_mem⟩
  obtain ⟨c, hc, he⟩ := List.mem_map.1 hmem
  exact h.injective c id (hchain c hc) hid he ▸ hc

include hw

theorem mem_chain_iff : f id ∈ waiting ++ chain.map f ↔ id ∈ chain := by
  rw [List.mem_append, or_iff_right (hw id hid), h.mem_map_iff hchain hid]

theorem circle : t.circle (waiting ++ chain.map f) (f id) = s.circle chain id := by
  have hskip : ∀ c ∈ waiting, decide (c ≠ f id) = true := by
    intro c hc
    have hne : c ≠ f id := fun he => hw id hid (he ▸ hc)
    exact decide_eq_true hne
  have hdrop : (chain.map f).dropWhile (· ≠ f id) = (chain.dropWhile (· ≠ id)).map f := by
    clear hskip
    induction chain with
    | nil => rfl
    | cons c chain ih =>
      have hc := hchain c List.mem_cons_self
      rw [List.map_cons, List.dropWhile_cons, List.dropWhile_cons]
      by_cases he : c = id
      · simp [he]
      · have hne : f c ≠ f id := fun hf => he (h.injective c id hc hid hf)
        simpa [he, hne] using ih fun c hc => hchain c (List.mem_cons_of_mem _ hc)
  have htokens : ∀ c ∈ chain.dropWhile (· ≠ id) ++ [id], P c := by
    intro c hc
    rcases List.mem_append.1 hc with hc | hc
    · exact hchain c ((List.dropWhile_sublist _).subset hc)
    · rwa [List.mem_singleton.1 hc]
  rw [Store.circle, Store.circle, List.dropWhile_append_of_pos hskip, hdrop, ← List.map_singleton,
    ← List.map_append, List.map_map]
  exact congrArg ResolutionError.circle
    (List.map_congr_left fun c hc => h.displayOf c (htokens c hc))

end

section

variable {waiting : List NodeId} (hw : ∀ id, P id → f id ∉ waiting)

include hw

/-- The induction is on the tokens that are not yet on the chain. -/
theorem resolveFrom {chain : List NodeId} (hchain : ∀ c ∈ chain, P c) {id : NodeId} (hid : P id) :
    t.resolveFrom (waiting ++ chain.map f) (f id) = s.resolveFrom chain id := by
  cases hnt : s.tokenNode id with
  | error e => rw [resolveFrom_of_error hnt, resolveFrom_of_error (h.error id e hid hnt)]
  | ok nu =>
    obtain ⟨n, u⟩ := nu
    obtain ⟨hn, hu⟩ := tokenNode_eq_ok_iff.1 hnt
    obtain ⟨m, v, hm, hv, hvalue, hown⟩ := h.token id n u hid hn hu
    by_cases hc : id ∈ chain
    · rw [resolveFrom_of_mem hn hu hc,
        resolveFrom_of_mem hm hv ((h.mem_chain_iff hw hchain hid).2 hc), h.circle hw hchain hid]
    have hc' := mt (h.mem_chain_iff hw hchain hid).1 hc
    have hlt := unvisited_append_lt (mem_ids_of_node? hn) hc
    have hnext : ∀ c ∈ chain ++ [id], P c :=
      List.forall_mem_append.2 ⟨hchain, List.forall_mem_singleton.2 hid⟩
    have hmap : waiting ++ chain.map f ++ [f id] = waiting ++ (chain ++ [id]).map f := by
      rw [List.map_append, List.map_singleton, List.append_assoc]
    cases hval : u.value with
    | aliasTo ref =>
      rw [resolveFrom_aliasTo hn hu hc hval, resolveFrom_aliasTo hm hv hc' (hvalue.trans hval)]
      rcases h.target id n u hid hn hu ref (by simp [hval, TokenValue.aliases]) with
        ⟨e, he, he'⟩ | ⟨a, b, ha, hb, hba, hPa⟩
      · rw [he, he']
        rfl
      · rw [ha, hb, hmap]
        show t.resolveFrom _ b.id >>= _ = s.resolveFrom _ a.id >>= _
        rw [hba, resolveFrom hnext hPa, hown]
        simp only [h.checkType hid]
    | literal lit =>
      have hfill : ∀ k, ∀ ref ∈ lit.aliases,
          t.fillField (waiting ++ (chain ++ [id]).map f) (f id) k ref =
            s.fillField (chain ++ [id]) id k ref := by
        intro k ref href
        rw [fillField, fillField]
        rcases h.target id n u hid hn hu ref (by rwa [hval]) with
          ⟨e, he, he'⟩ | ⟨a, b, ha, hb, hba, hPa⟩
        · rw [he, he']
          rfl
        · rw [ha, hb]
          show t.resolveFrom _ b.id >>= _ = s.resolveFrom _ a.id >>= _
          rw [hba, resolveFrom hnext hPa]
          exact congrArg _ (funext (h.fieldContent hid hPa k ref))
      rw [resolveFrom_literal hn hu hc hval, resolveFrom_literal hm hv hc' (hvalue.trans hval), hmap,
        Literal.mapFields_congr hfill, hown, h.displayOf id hid]
      simp only [h.checkType hid]
termination_by s.unvisited chain

/-- The search for a type goes the same way. -/
theorem typeFrom {chain : List NodeId} (hchain : ∀ c ∈ chain, P c) {id : NodeId} (hid : P id) :
    t.typeFrom (waiting ++ chain.map f) (f id) = s.typeFrom chain id := by
  cases hnt : s.tokenNode id with
  | error e => rw [typeFrom_of_error hnt, typeFrom_of_error (h.error id e hid hnt)]
  | ok nu =>
    obtain ⟨n, u⟩ := nu
    obtain ⟨hn, hu⟩ := tokenNode_eq_ok_iff.1 hnt
    obtain ⟨m, v, hm, hv, hvalue, hown⟩ := h.token id n u hid hn hu
    rw [typeFrom_token hn hu, typeFrom_token hm hv, hown, hvalue]
    cases s.ownType n with
    | some type => rfl
    | none =>
      cases hval : u.value with
      | literal lit => simp only [h.displayOf id hid]
      | aliasTo ref =>
        by_cases hc : id ∈ chain
        · simp only [if_pos hc, if_pos ((h.mem_chain_iff hw hchain hid).2 hc),
            h.circle hw hchain hid]
        have hlt := unvisited_append_lt (mem_ids_of_node? hn) hc
        have hnext : ∀ c ∈ chain ++ [id], P c :=
          List.forall_mem_append.2 ⟨hchain, List.forall_mem_singleton.2 hid⟩
        have hmap : waiting ++ chain.map f ++ [f id] = waiting ++ (chain ++ [id]).map f := by
          rw [List.map_append, List.map_singleton, List.append_assoc]
        simp only [if_neg hc, if_neg (mt (h.mem_chain_iff hw hchain hid).1 hc), hmap]
        rcases h.target id n u hid hn hu ref (by simp [hval, TokenValue.aliases]) with
          ⟨e, he, he'⟩ | ⟨a, b, ha, hb, hba, hPa⟩
        · rw [he, he']
          rfl
        · rw [ha, hb]
          show t.typeFrom _ b.id = s.typeFrom _ a.id
          rw [hba, typeFrom hnext hPa]
termination_by s.unvisited chain

end

/-- A token and the one that stands for it resolve to the same result. -/
theorem resolve {id : NodeId} (hid : P id) : t.resolve (f id) = s.resolve id := by
  have hw : ∀ id, P id → f id ∉ ([] : List NodeId) := fun _ _ => List.not_mem_nil
  have hchain : ∀ c ∈ ([] : List NodeId), P c := nofun
  exact h.resolveFrom hw hchain hid

theorem typeOf {id : NodeId} (hid : P id) : t.typeOf (f id) = s.typeOf id := by
  have hw : ∀ id, P id → f id ∉ ([] : List NodeId) := fun _ _ => List.not_mem_nil
  have hchain : ∀ c ∈ ([] : List NodeId), P c := nofun
  exact h.typeFrom hw hchain hid

end Tracks

end DesignTokens.Store
