/-
One step of resolution. For a token that does not close a circle `resolveFrom`
is one of two equations, for an alias and for a literal; the second runs the
action `fillField` over the fields. Whatever is proved of resolution starts
from these equations, and no proof opens the recursion itself.
-/
import DesignTokens.Proofs.Outcome
import DesignTokens.Resolution.Basic

namespace DesignTokens.Store

theorem token?_eq_some_iff {n : Node} {t : Token} : n.token? = some t ↔ n.content = .token t := by
  unfold Node.token?
  split
  · next u hu => rw [hu, Option.some.injEq, Content.token.injEq]
  · next hu =>
    simp only [reduceCtorEq, false_iff]
    exact hu t

theorem tokenNode_eq_ok_iff {s : Store} {id : NodeId} {n : Node} {t : Token} :
    s.tokenNode id = .ok (n, t) ↔ s.node? id = some n ∧ n.content = .token t := by
  unfold tokenNode
  rw [← token?_eq_some_iff]
  split
  · next h => simp [h]
  next m hm =>
  split
  · next h =>
    simp only [reduceCtorEq, hm, Option.some.injEq, false_iff, not_and]
    intro he
    subst he
    simp [h]
  · next u hu =>
    simp only [Except.ok.injEq, Prod.mk.injEq, hm, Option.some.injEq]
    refine ⟨fun ⟨h₁, h₂⟩ => ⟨h₁, by rw [← h₁, hu, h₂]⟩, fun ⟨h₁, h₂⟩ => ⟨h₁, ?_⟩⟩
    rw [← h₁, hu] at h₂
    exact Option.some.inj h₂

theorem checkType_eq_ok_iff {s : Store} {id : NodeId} {q r : Resolved} :
    s.checkType id q = .ok r ↔ q = r ∧ r.value.type = r.type := by
  unfold checkType
  split
  · next h =>
    simp only [Except.ok.injEq]
    exact ⟨fun he => ⟨he, he ▸ h⟩, fun he => he.1⟩
  · next h =>
    simp only [reduceCtorEq, false_iff]
    intro ⟨he, h'⟩
    exact h (he ▸ h')

theorem fieldContent_eq_ok_iff {s : Store} {holder target : NodeId} {k : FieldKind} {ref : Alias}
    {r : Resolved} {g : Field k.Value} :
    s.fieldContent holder target k ref r = .ok g ↔
      r.type = k.type ∧ ∃ v, k.ofLiteral? r.value = some v ∧ g = .value v := by
  unfold fieldContent
  split
  · next h => simp [h]
  · next h =>
    have ht : r.type = k.type := Decidable.not_not.1 h
    cases hv : k.ofLiteral? r.value with
    | none => simp
    | some v => simp [ht, eq_comm]

/-- The action that fills in a field of a token: its alias is followed and resolved. -/
def fillField (s : Store) (chain : List NodeId) (id : NodeId) (k : FieldKind) (ref : Alias) :
    Except ResolutionError (Field k.Value) := do
  let target ← s.target ref id
  let r ← s.resolveFrom chain target.id
  s.fieldContent id target.id k ref r

theorem fillField_eq_ok_iff {s : Store} {chain : List NodeId} {id : NodeId} {k : FieldKind}
    {ref : Alias} {v : k.Value} :
    s.fillField chain id k ref = .ok (.value v) ↔ ∃ m r, s.target ref id = .ok m ∧
      s.resolveFrom chain m.id = .ok r ∧ r.type = k.type ∧ k.ofLiteral? r.value = some v := by
  simp only [fillField, Outcome.bind_eq_ok_iff, fieldContent_eq_ok_iff, Field.value.injEq]
  constructor
  · rintro ⟨m, hm, r, hr, ht, w, hw, hvw⟩
    exact ⟨m, r, hm, hr, ht, hvw ▸ hw⟩
  · rintro ⟨m, r, hm, hr, ht, hv⟩
    exact ⟨m, hm, r, hr, ht, v, hv, rfl⟩

theorem exists_value_of_fillField {s : Store} {chain : List NodeId} {id : NodeId} (k : FieldKind)
    (ref : Alias) (g : Field k.Value) (h : s.fillField chain id k ref = .ok g) :
    ∃ v, g = .value v := by
  simp only [fillField, Outcome.bind_eq_ok_iff, fieldContent_eq_ok_iff] at h
  obtain ⟨_, _, _, _, _, v, _, hg⟩ := h
  exact ⟨v, hg⟩

/-! ## The equations -/

theorem resolveFrom_of_error {s : Store} {chain : List NodeId} {id : NodeId} {e : ResolutionError}
    (h : s.tokenNode id = .error e) : s.resolveFrom chain id = .error e := by
  rw [resolveFrom]
  split
  · next e' he =>
    rw [h] at he
    cases he
    rfl
  · next hn =>
    rw [h] at hn
    cases hn

section

variable {s : Store} {chain : List NodeId} {id : NodeId} {n : Node} {t : Token}
  (hn : s.node? id = some n) (ht : n.content = .token t)

include hn ht

theorem resolveFrom_of_mem (hc : id ∈ chain) :
    s.resolveFrom chain id = .error (s.circle chain id) := by
  have hnt := tokenNode_eq_ok_iff.2 ⟨hn, ht⟩
  rw [resolveFrom]
  split
  · next he => simp [hnt] at he
  · rw [dif_pos hc]

variable (hc : id ∉ chain)

include hc

theorem resolveFrom_aliasTo {ref : Alias} (hv : t.value = .aliasTo ref) :
    s.resolveFrom chain id = (do
      let m ← s.target ref id
      let q ← s.resolveFrom (chain ++ [id]) m.id
      s.checkType id ⟨(s.ownType n).getD q.type, q.value⟩) := by
  have hnt := tokenNode_eq_ok_iff.2 ⟨hn, ht⟩
  rw [resolveFrom]
  split
  · next he => simp [hnt] at he
  next n' t' hnt' =>
  rw [hnt, Except.ok.injEq, Prod.mk.injEq] at hnt'
  obtain ⟨hn', ht'⟩ := hnt'
  subst hn' ht'
  rw [dif_neg hc]
  simp only [hv]
  rfl

theorem resolveFrom_literal {lit : Literal} (hv : t.value = .literal lit) :
    s.resolveFrom chain id = (match s.ownType n with
      | none => .error (.untyped (s.displayOf id))
      | some type => do
        let value ← lit.mapFields (s.fillField (chain ++ [id]) id)
        s.checkType id ⟨type, value⟩) := by
  have hnt := tokenNode_eq_ok_iff.2 ⟨hn, ht⟩
  rw [resolveFrom]
  split
  · next he => simp [hnt] at he
  next n' t' hnt' =>
  rw [hnt, Except.ok.injEq, Prod.mk.injEq] at hnt'
  obtain ⟨hn', ht'⟩ := hnt'
  subst hn' ht'
  rw [dif_neg hc]
  simp only [hv]
  cases s.ownType n <;> rfl

end

theorem typeFrom_of_error {s : Store} {chain : List NodeId} {id : NodeId} {e : ResolutionError}
    (h : s.tokenNode id = .error e) : s.typeFrom chain id = .error e := by
  rw [typeFrom]
  split
  · next e' he =>
    rw [h] at he
    cases he
    rfl
  · next hn =>
    rw [h] at hn
    cases hn

theorem typeFrom_token {s : Store} {chain : List NodeId} {id : NodeId} {n : Node} {t : Token}
    (hn : s.node? id = some n) (ht : n.content = .token t) :
    s.typeFrom chain id = (match s.ownType n with
      | some type => .ok type
      | none =>
        match t.value with
        | .literal _ => .error (.untyped (s.displayOf id))
        | .aliasTo ref =>
          if id ∈ chain then .error (s.circle chain id)
          else do
            let m ← s.target ref id
            s.typeFrom (chain ++ [id]) m.id) := by
  have hnt := tokenNode_eq_ok_iff.2 ⟨hn, ht⟩
  rw [typeFrom]
  split
  · next he => simp [hnt] at he
  next n' t' hnt' =>
  rw [hnt, Except.ok.injEq, Prod.mk.injEq] at hnt'
  obtain ⟨hn', ht'⟩ := hnt'
  subst hn' ht'
  rfl

end DesignTokens.Store
