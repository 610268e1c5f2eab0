/-
Resolution as rules. `Yields` derives the type and the literal of a token from
those of the tokens it refers to; it knows no chain of waiting tokens, and a
circle simply has no derivation. `resolve_eq_ok_iff` says that resolution finds
exactly what can be derived.

That a derivation exists is what keeps the chain from being in the way: the
tokens below a derived one are well-founded under `RefersTo`, so none of those
that wait for it can come again.
-/
import DesignTokens.Proofs.Resolution.OwnType
import DesignTokens.Proofs.Resolution.Step
import DesignTokens.Proofs.Value.Filled
import DesignTokens.Proofs.Walk

namespace DesignTokens.Store

/-- The derivations of what a token resolves to. -/
inductive Yields (s : Store) : NodeId → Resolved → Prop
  /--
  A literal of the token's own type, in which each alias has become the
  content of what its target yields, of the type that the field takes. The
  premises of the derivation are given with the alias and the target of each.
  -/
  | literal {id : NodeId} {n : Node} {t : Token} {lit value : Literal}
      (premises : Alias → Node → Resolved → Prop)
      (stored : s.node? id = some n) (token : n.content = .token t)
      (held : t.value = .literal lit) (own : s.HasType n lit.type)
      (found : ∀ ref m r, premises ref m r → s.target ref id = .ok m)
      (derived : ∀ ref m r, premises ref m r → Yields s m.id r)
      (filled : lit.Filled (fun k ref v => ∃ m r, premises ref m r ∧
        r.type = k.type ∧ k.ofLiteral? r.value = some v) value) :
      Yields s id ⟨lit.type, value⟩
  /-- An alias, by what its target yields. If the token has a type of its own, it is the same. -/
  | aliasTo {id : NodeId} {n m : Node} {t : Token} {ref : Alias} {r : Resolved}
      (stored : s.node? id = some n) (token : n.content = .token t)
      (held : t.value = .aliasTo ref) (found : s.target ref id = .ok m)
      (derived : Yields s m.id r) (own : ∀ type, s.HasType n type → type = r.type) :
      Yields s id r

/-- A token holds an alias, as its value or in a field, whose target is another token. -/
def RefersTo (s : Store) (a b : NodeId) : Prop :=
  ∃ n t ref m, s.node? a = some n ∧ n.content = .token t ∧ ref ∈ t.value.aliases ∧
    s.target ref a = .ok m ∧ m.id = b

/-- What is derived has a literal of its type. -/
theorem Yields.type_eq {s : Store} {id : NodeId} {r : Resolved} (h : s.Yields id r) :
    r.value.type = r.type := by
  induction h with
  | literal _ _ _ _ _ _ _ filled => exact filled.type_eq.symm
  | aliasTo _ _ _ _ _ _ ih => exact ih

/-- Each alias of what is derived has a target. -/
theorem Yields.exists_target {s : Store} {id : NodeId} {r : Resolved} (h : s.Yields id r)
    {n : Node} {t : Token} (hn : s.node? id = some n) (ht : n.content = .token t) {ref : Alias}
    (href : ref ∈ t.value.aliases) : ∃ m, s.target ref id = .ok m := by
  cases h with
  | literal premises stored token held own found derived filled =>
    cases stored.symm.trans hn
    cases token.symm.trans ht
    rw [held] at href
    obtain ⟨k, v, m, q, hp, _⟩ := filled.of_mem href
    exact ⟨m, found ref m q hp⟩
  | aliasTo stored token held found derived own =>
    cases stored.symm.trans hn
    cases token.symm.trans ht
    rw [held, TokenValue.aliases, List.mem_singleton] at href
    exact ⟨_, href ▸ found⟩

/-! ## When a step succeeds -/

theorem of_resolveFrom_eq_ok {s : Store} {chain : List NodeId} {id : NodeId} {r : Resolved}
    (h : s.resolveFrom chain id = .ok r) :
    id ∉ chain ∧ ∃ n t, s.node? id = some n ∧ n.content = .token t := by
  cases hnt : s.tokenNode id with
  | error e =>
    rw [resolveFrom_of_error hnt] at h
    cases h
  | ok nt =>
    obtain ⟨hn, ht⟩ := tokenNode_eq_ok_iff.1 hnt
    refine ⟨fun hc => ?_, nt.1, nt.2, hn, ht⟩
    rw [resolveFrom_of_mem hn ht hc] at h
    cases h

section

variable {s : Store} {chain : List NodeId} {id : NodeId} {n : Node} {t : Token} {r : Resolved}
  (hn : s.node? id = some n) (ht : n.content = .token t) (hc : id ∉ chain)

include hn ht hc

theorem resolveFrom_aliasTo_eq_ok_iff {ref : Alias} (hv : t.value = .aliasTo ref) :
    s.resolveFrom chain id = .ok r ↔ r.value.type = r.type ∧ ∃ m q, s.target ref id = .ok m ∧
      s.resolveFrom (chain ++ [id]) m.id = .ok q ∧
      r = ⟨(s.ownType n).getD q.type, q.value⟩ := by
  simp only [resolveFrom_aliasTo hn ht hc hv, Outcome.bind_eq_ok_iff, checkType_eq_ok_iff]
  constructor
  · rintro ⟨m, hm, q, hq, he, hr⟩
    exact ⟨hr, m, q, hm, hq, he.symm⟩
  · rintro ⟨hr, m, q, hm, hq, he⟩
    exact ⟨m, hm, q, hq, he.symm, hr⟩

theorem resolveFrom_literal_eq_ok_iff {lit : Literal} (hv : t.value = .literal lit) :
    s.resolveFrom chain id = .ok r ↔ r.value.type = r.type ∧ s.HasType n r.type ∧
      lit.mapFields (s.fillField (chain ++ [id]) id) = .ok r.value := by
  rw [resolveFrom_literal hn ht hc hv, ← ownType_eq_some_iff]
  cases s.ownType n with
  | none => simp
  | some type =>
    simp only [Outcome.bind_eq_ok_iff, checkType_eq_ok_iff, Option.some.injEq]
    constructor
    · rintro ⟨v, hm, he, hr⟩
      subst he
      exact ⟨hr, rfl, hm⟩
    · rintro ⟨hr, ho, hm⟩
      exact ⟨r.value, hm, by rw [ho], hr⟩

end

/-! ## What resolves is derived -/

/-- The induction is on the number of tokens that are not yet on the chain. -/
theorem yields_of_resolveFrom {s : Store} {chain : List NodeId} {id : NodeId} {r : Resolved}
    (h : s.resolveFrom chain id = .ok r) : s.Yields id r := by
  obtain ⟨hc, n, t, hn, ht⟩ := of_resolveFrom_eq_ok h
  have hlt : s.unvisited (chain ++ [id]) < s.unvisited chain :=
    unvisited_append_lt (mem_ids_of_node? hn) hc
  cases hv : t.value with
  | aliasTo ref =>
    obtain ⟨hr, m, q, hm, hq, he⟩ := (resolveFrom_aliasTo_eq_ok_iff hn ht hc hv).1 h
    have hqr : s.Yields m.id q := yields_of_resolveFrom hq
    have hqt : q.value.type = q.type := hqr.type_eq
    cases ho : s.ownType n with
    | none =>
      rw [ho, Option.getD_none] at he
      subst he
      exact .aliasTo hn ht hv hm hqr fun type h => absurd h (ownType_eq_none_iff.1 ho type)
    | some own =>
      rw [ho, Option.getD_some] at he
      subst he
      have hoq : own = q.type := hr.symm.trans hqt
      subst hoq
      refine .aliasTo hn ht hv hm hqr fun type h => ?_
      exact Option.some.inj ((ownType_eq_some_iff.2 h).symm.trans ho)
  | literal lit =>
    obtain ⟨hr, ho, hm⟩ := (resolveFrom_literal_eq_ok_iff hn ht hc hv).1 h
    have hf := (Literal.mapFields_eq_ok_iff exists_value_of_fillField).1 hm
    have htype : lit.type = r.type := hf.type_eq.trans hr
    rw [← htype] at ho
    have hy := Yields.literal
      (fun ref m q => s.target ref id = .ok m ∧ s.resolveFrom (chain ++ [id]) m.id = .ok q)
      hn ht hv ho (fun _ _ _ hp => hp.1) (fun _ _ _ hp => yields_of_resolveFrom hp.2)
      (hf.mono fun k ref v _ hp => by
        obtain ⟨m, q, hm, hq, hk⟩ := fillField_eq_ok_iff.1 hp
        exact ⟨m, q, ⟨hm, hq⟩, hk⟩)
    rwa [htype] at hy
termination_by s.unvisited chain

/-! ## What is derived resolves -/

theorem Yields.acc {s : Store} {id : NodeId} {r : Resolved} (h : s.Yields id r) :
    Acc (fun b a => s.RefersTo a b) id := by
  induction h with
  | @literal id n t lit value premises stored token held own found derived filled ih =>
    refine ⟨_, fun b ⟨n', t', ref, m, hn, ht, href, hm, hb⟩ => ?_⟩
    cases stored.symm.trans hn
    cases token.symm.trans ht
    rw [held] at href
    obtain ⟨k, v, m', q, hp, _⟩ := filled.of_mem href
    cases (found ref m' q hp).symm.trans hm
    exact hb ▸ ih ref m q hp
  | @aliasTo id n m t ref r stored token held found derived own ih =>
    refine ⟨_, fun b ⟨n', t', ref', m', hn, ht, href, hm, hb⟩ => ?_⟩
    cases stored.symm.trans hn
    cases token.symm.trans ht
    rw [held, TokenValue.aliases, List.mem_singleton] at href
    subst href
    cases found.symm.trans hm
    exact hb ▸ ih

/-- No path of references leads from a derived token back to it. -/
theorem Yields.not_transGen_self {s : Store} {id : NodeId} {r : Resolved} (h : s.Yields id r) :
    ¬ Relation.TransGen s.RefersTo id id :=
  Walk.not_transGen_self_of_acc h.acc

theorem Yields.resolveFrom {s : Store} {id : NodeId} {r : Resolved} (h : s.Yields id r) :
    ∀ chain, (∀ c ∈ chain, Relation.TransGen s.RefersTo c id) →
      s.resolveFrom chain id = .ok r := by
  induction h with
  | @literal id n t lit value premises stored token held own found derived filled ih =>
    intro chain hchain
    have hc : id ∉ chain := fun hid =>
      (Yields.literal premises stored token held own found derived filled).not_transGen_self
        (hchain id hid)
    refine (resolveFrom_literal_eq_ok_iff stored token hc held).2
      ⟨filled.type_eq.symm, own, ?_⟩
    refine (Literal.mapFields_eq_ok_iff exists_value_of_fillField).2
      (filled.mono fun k ref v href ⟨m, q, hp, hk⟩ => ?_)
    have hm : s.RefersTo id m.id :=
      ⟨n, t, ref, m, stored, token, by rwa [held], found ref m q hp, rfl⟩
    refine fillField_eq_ok_iff.2 ⟨m, q, found ref m q hp, ih ref m q hp _ fun c hcm => ?_, hk⟩
    exact Walk.transGen_of_mem_append hchain hm hcm
  | @aliasTo id n m t ref r stored token held found derived own ih =>
    intro chain hchain
    have hc : id ∉ chain := fun hid =>
      (Yields.aliasTo stored token held found derived own).not_transGen_self (hchain id hid)
    have hm : s.RefersTo id m.id :=
      ⟨n, t, ref, m, stored, token, by rw [held]; exact List.mem_singleton.2 rfl, found, rfl⟩
    refine (resolveFrom_aliasTo_eq_ok_iff stored token hc held).2
      ⟨derived.type_eq, m, r, found, ih _ fun c hcm => ?_, ?_⟩
    · exact Walk.transGen_of_mem_append hchain hm hcm
    · cases ho : s.ownType n with
      | none => rfl
      | some type =>
        rw [Option.getD_some, own type (ownType_eq_some_iff.1 ho)]

/--
**Resolution finds what can be derived.** In every store, a token resolves to a
type and a literal just if the rules yield them for it: whatever the aliases
share, no derivable token is turned away, and what circles is not derivable.
-/
theorem resolve_eq_ok_iff {s : Store} {id : NodeId} {r : Resolved} :
    s.resolve id = .ok r ↔ s.Yields id r :=
  ⟨yields_of_resolveFrom, fun h => h.resolveFrom [] fun _ hc => nomatch hc⟩

end DesignTokens.Store
