/-
The type of a token against its value. The search for a type stops at the first
token that has one of its own and enters untyped aliases alone; resolution goes
on to the literal and checks the type at every token it comes by. Where both
give an answer it is the same type, and a search that fails is one in which
resolution fails, with the same error (`typeOf_agrees`).
-/
import DesignTokens.Proofs.Resolution.Derivation
import DesignTokens.Store.Batch

namespace DesignTokens.Store

/-- The induction is on the derivation: a token of its own type ends the search at once, and the
search from an untyped alias goes the way that the derivation goes. -/
theorem Yields.typeFrom {s : Store} {id : NodeId} {r : Resolved} (h : s.Yields id r) :
    ∀ chain, (∀ c ∈ chain, Relation.TransGen s.RefersTo c id) →
      s.typeFrom chain id = .ok r.type := by
  induction h with
  | literal premises stored token held own found derived filled ih =>
    intro chain _
    rw [typeFrom_token stored token, ownType_eq_some_iff.2 own]
  | @aliasTo id n m t ref r stored token held found derived own ih =>
    intro chain hchain
    rw [typeFrom_token stored token, held]
    cases ho : s.ownType n with
    | some type => rw [own type (ownType_eq_some_iff.1 ho)]
    | none =>
      have hyields : s.Yields id r := .aliasTo stored token held found derived own
      have hc : id ∉ chain := fun hmem => hyields.not_transGen_self (hchain id hmem)
      have hm : s.RefersTo id m.id :=
        ⟨n, t, ref, m, stored, token, by rw [held]; exact List.mem_singleton.2 rfl, found, rfl⟩
      simp only [if_neg hc, found]
      exact ih _ fun c hcm => Walk.transGen_of_mem_append hchain hm hcm

/-- A stored token whose value is an alias. -/
def HoldsAlias (s : Store) (id : NodeId) : Prop :=
  ∃ n t ref, s.node? id = some n ∧ n.content = .token t ∧ t.value = .aliasTo ref

theorem HoldsAlias.value_ne_literal {s : Store} {id : NodeId} (h : s.HoldsAlias id) {n : Node}
    {t : Token} (hn : s.node? id = some n) (ht : n.content = .token t) (lit : Literal) :
    t.value ≠ .literal lit := by
  obtain ⟨n', t', ref, hn', ht', hv'⟩ := h
  cases hn.symm.trans hn'
  cases ht.symm.trans ht'
  rw [hv']
  exact nofun

/-- The search has left only aliases waiting. Resolution enters these as well, so that it comes
to where the search fails, with the same tokens waiting; the induction is on the others. -/
theorem resolveFrom_of_typeFrom_error {s : Store} {chain : List NodeId} {id : NodeId}
    {e : ResolutionError} (hchain : ∀ c ∈ chain, s.HoldsAlias c)
    (h : s.typeFrom chain id = .error e) : s.resolveFrom chain id = .error e := by
  cases hnt : s.tokenNode id with
  | error e' =>
    rw [typeFrom_of_error hnt, Except.error.injEq] at h
    rw [resolveFrom_of_error hnt, h]
  | ok nt =>
    obtain ⟨n, t⟩ := nt
    obtain ⟨hn, ht⟩ := tokenNode_eq_ok_iff.1 hnt
    rw [typeFrom_token hn ht] at h
    cases ho : s.ownType n with
    | some type =>
      rw [ho] at h
      cases h
    | none =>
      rw [ho] at h
      cases hv : t.value with
      | literal lit =>
        have hc : id ∉ chain := fun hmem => (hchain id hmem).value_ne_literal hn ht lit hv
        rw [hv] at h
        rw [resolveFrom_literal hn ht hc hv, ho]
        exact congrArg Except.error (Except.error.inj h)
      | aliasTo ref =>
        rw [hv] at h
        by_cases hc : id ∈ chain
        · simp only [if_pos hc, Except.error.injEq] at h
          rw [resolveFrom_of_mem hn ht hc, h]
        · have hlt := unvisited_append_lt (mem_ids_of_node? hn) hc
          have hnext : ∀ c ∈ chain ++ [id], s.HoldsAlias c :=
            List.forall_mem_append.2 ⟨hchain, List.forall_mem_singleton.2 ⟨n, t, ref, hn, ht, hv⟩⟩
          simp only [if_neg hc, Outcome.bind_eq_error_iff] at h
          rw [resolveFrom_aliasTo hn ht hc hv, Outcome.bind_eq_error_iff]
          refine h.imp_right fun ⟨m, hm, herror⟩ => ⟨m, hm, ?_⟩
          exact Outcome.bind_eq_error_iff.2 (.inl (resolveFrom_of_typeFrom_error hnext herror))
termination_by s.unvisited chain

/--
**The type of a token is that of its value.** In every store, a token that
resolves has the type that it resolves to. And where no type is found, the token
does not resolve either, for the same reason.
-/
theorem typeOf_agrees (s : Store) (id : NodeId) :
    (∀ r, s.resolve id = .ok r → s.typeOf id = .ok r.type) ∧
    ∀ e, s.typeOf id = .error e → s.resolve id = .error e := by
  refine ⟨fun r h => ?_, fun e h => ?_⟩
  · exact (resolve_eq_ok_iff.1 h).typeFrom [] fun _ hc => nomatch hc
  · exact resolveFrom_of_typeFrom_error (fun _ hc => nomatch hc) h

/-- A length in a group of lengths, two untyped aliases on the way to it, and two to each other. -/
def hops : Store :=
  let token (id : String) (parent : Option NodeId) (value : TokenValue) : Node :=
    ⟨⟨id⟩, parent, "a0", .token ⟨id, .none, none, value⟩⟩
  ofNodes [token "near" none (.aliasTo (.path "far")), token "far" none (.aliasTo (.path "size.gap")),
    ⟨⟨"size"⟩, none, "a0", .group ⟨"size", .none, some .dimension⟩⟩,
    token "gap" (some ⟨"size"⟩) (.literal (.dimension ⟨.integer 2, .px⟩)),
    token "hither" none (.aliasTo (.path "thither")),
    token "thither" none (.aliasTo (.id ⟨"hither"⟩))]

/-- The type comes from beyond both aliases; for the other two the circle is reported twice. -/
theorem typeOf_agrees_hops :
    (hops.resolve ⟨"near"⟩ = .ok ⟨.dimension, .dimension ⟨.integer 2, .px⟩⟩ ∧
      hops.typeOf ⟨"near"⟩ = .ok .dimension) ∧
    hops.typeOf ⟨"hither"⟩ = .error (.circle ["hither", "thither", "hither"]) ∧
    hops.resolve ⟨"hither"⟩ = .error (.circle ["hither", "thither", "hither"]) := by
  have hnear : hops.resolve ⟨"near"⟩ = .ok ⟨.dimension, .dimension ⟨.integer 2, .px⟩⟩ := by
    decide +kernel
  have hcircle : hops.typeOf ⟨"hither"⟩ = .error (.circle ["hither", "thither", "hither"]) := by
    decide +kernel
  exact ⟨⟨hnear, (typeOf_agrees hops _).1 _ hnear⟩, hcircle, (typeOf_agrees hops _).2 _ hcircle⟩

end DesignTokens.Store
