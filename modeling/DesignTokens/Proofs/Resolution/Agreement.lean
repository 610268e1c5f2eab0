/-
What resolution looks at. From a token it gets to those that are reached by
references, and of these it reads the outlines, the values and the types of
their own. So stores of the same outline resolve a token alike if they agree on
the values and types of a set of tokens that references do not lead out of.

Nor does it matter which tokens wait on the chain, as long as they are outside
of that set: none of them comes again (`AgreeOn.resolve_behind`).
-/
import DesignTokens.Proofs.Resolution.Derivation
import DesignTokens.Proofs.Resolution.Outline
import DesignTokens.Proofs.Resolution.Tracks

namespace DesignTokens.Store

/-- Two stores agree on tokens that references do not lead out of. -/
structure AgreeOn (P : NodeId → Prop) (s t : Store) : Prop extends s.SameOutline t where
  /-- A node has the same type of its own in both. -/
  type : ∀ id n m, P id → s.node? id = some n → t.node? id = some m → s.ownType n = t.ownType m
  value : ∀ id n m u v, P id → s.node? id = some n → n.content = .token u →
    t.node? id = some m → m.content = .token v → u.value = v.value
  closed : ∀ a b, P a → s.RefersTo a b → P b

namespace AgreeOn

variable {P : NodeId → Prop} {s t : Store} (h : AgreeOn P s t)

include h

theorem tracks : Tracks P id s t where
  injective _ _ _ _ he := he
  displayOf id _ := (h.displayOf id).symm
  error _ _ _ he := h.tokenNode_of_error he
  token id n u hid hn hu := by
    obtain ⟨m, v, hm, hv⟩ := h.exists_token hn hu
    exact ⟨m, v, hm, hv, (h.value id n m u v hid hn hu hm hv).symm, (h.type id n m hid hn hm).symm⟩
  target id n u hid hn hu ref href := by
    rcases h.target_cases ref id with he | ⟨a, b, ha, hb, hab⟩
    · exact .inl he
    · exact .inr ⟨a, b, ha, hb, hab.symm, h.closed id a.id hid ⟨n, u, ref, a, hn, hu, href, ha, rfl⟩⟩

variable {id : NodeId} (hid : P id)

include hid

theorem resolve : s.resolve id = t.resolve id := (h.tracks.resolve hid).symm

theorem typeOf : s.typeOf id = t.typeOf id := (h.tracks.typeOf hid).symm

/-- It does not matter which tokens of other values wait. -/
theorem resolve_behind {waiting : List NodeId} (hw : ∀ c ∈ waiting, ¬ P c) :
    s.resolve id = t.resolveFrom waiting id := by
  have hw' : ∀ c, P c → c ∉ waiting := fun c hc hmem => hw c hmem hc
  have hchain : ∀ c ∈ ([] : List NodeId), P c := nofun
  have hrest := h.tracks.resolveFrom hw' hchain hid
  rw [List.map_nil, List.append_nil] at hrest
  exact hrest.symm

end AgreeOn

end DesignTokens.Store
