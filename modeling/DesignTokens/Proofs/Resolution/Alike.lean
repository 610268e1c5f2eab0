/-
What resolution does not look at: order keys, and where a type is declared. Two
stores are alike if their nodes and lists of children differ in nothing else
and every node has the same type of its own in both. In alike stores every path
leads to the same token and every token resolves to the same result, a value or
an error. `Node.bare` is what is left of a node.
-/
import DesignTokens.Proofs.Resolution.Agreement

namespace DesignTokens

/-- Content without a declared type. -/
def Content.bare : Content → Content
  | .token t => .token { t with declaredType := none }
  | .group g => .group { g with declaredType := none }
  | c => c

namespace Node

/-- A node without its order key and its declared type. -/
def bare (n : Node) : Node := { n with order := "", content := n.content.bare }

@[simp] theorem bare_id (n : Node) : n.bare.id = n.id := rfl

@[simp] theorem outline_bare (n : Node) : n.bare.outline = n.outline := by
  obtain ⟨_, _, _, c⟩ := n
  cases c <;> rfl

variable {n m : Node} (h : n.bare = m.bare)

include h

theorem outline_eq_of_bare : n.outline = m.outline := by rw [← outline_bare, h, outline_bare]

theorem id_eq_of_bare : n.id = m.id := id_eq_of_outline (outline_eq_of_bare h)

theorem token_of_bare {u : Token} (hu : n.content = .token u) :
    ∃ v, m.content = .token v ∧ v.value = u.value := by
  have hc : n.content.bare = m.content.bare := congrArg Node.content h
  rw [hu] at hc
  cases hm : m.content with
  | token v =>
    rw [hm, Content.bare, Content.bare, Content.token.injEq] at hc
    exact ⟨v, rfl, (congrArg Token.value hc).symm⟩
  | _ =>
    rw [hm] at hc
    cases hc

end Node

namespace Store

/-- Two stores differ in keys and in where types are declared, and in nothing else. -/
structure Alike (s t : Store) : Prop where
  ids : s.ids = t.ids
  node : ∀ id, (s.node? id).map Node.bare = (t.node? id).map Node.bare
  children : ∀ p, (s.children p).map Node.bare = (t.children p).map Node.bare
  /-- A node has the same type of its own in both. -/
  type : ∀ id n m, s.node? id = some n → t.node? id = some m → s.ownType n = t.ownType m

namespace Alike

variable {s t : Store} (h : s.Alike t)

include h

theorem sameOutline : s.SameOutline t where
  ids := h.ids
  node id := by
    rcases cases_of_map_eq (h.node id) with ⟨hs, ht⟩ | ⟨n, m, hs, ht, hb⟩
    · rw [hs, ht]
    · rw [hs, ht, Option.map_some, Option.map_some, Node.outline_eq_of_bare hb]
  children p := map_of_map_eq (h.children p) fun _ _ => Node.outline_eq_of_bare

theorem agreeOn : AgreeOn (fun _ => True) s t where
  toSameOutline := h.sameOutline
  type id n m _ := h.type id n m
  value id n m u v _ hn hu hm hv := by
    have hb := h.node id
    rw [hn, hm, Option.map_some, Option.map_some, Option.some.injEq] at hb
    obtain ⟨v', hv', hvu⟩ := Node.token_of_bare hb hu
    cases hv.symm.trans hv'
    exact hvu.symm
  closed _ _ _ _ := trivial

/-- Every token resolves to the same result in alike stores. -/
theorem resolve (id : NodeId) : s.resolve id = t.resolve id := h.agreeOn.resolve trivial

end Alike

end Store

end DesignTokens
