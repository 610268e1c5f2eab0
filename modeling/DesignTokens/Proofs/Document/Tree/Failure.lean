/-
Why a tree cannot be written. The writer comes by the tokens that hang on a
parent by groups, and by no others (`mem_forestTokens_forest_iff`); it fails for
the reason of the first alias of theirs that it has no text for, and only so
(`Tree.error?_writeBelow`). Tokens that are dropped in the end, since a sibling
has the same name, are come by as well.
-/
import DesignTokens.Proofs.Document.Tree.Written
import DesignTokens.Proofs.Store.UpTo
import DesignTokens.Proofs.Value.Asked

namespace DesignTokens

open Outcome (error? error?_bind error?_bind_pure)

/-! ## Aliases without a text -/

namespace Tree

section

variable {ε : Type} {writeAlias : NodeId → Alias → Except ε String} {minimal : Bool}

mutual

theorem error?_writeEntry {inherited : Option TokenType} : (e : Entry NodeId) →
    error? (writeEntry minimal writeAlias inherited e) = e.tokens.findSome? fun x =>
      x.2.value.aliases.findSome? fun ref => error? (writeAlias x.1 ref)
  | .token id t => by
    rw [writeEntry, error?_bind_pure, TokenValue.error?_write, Entry.tokens,
      List.findSome?_singleton]
  | .group _ g children => by
    rw [writeEntry, error?_bind_pure, error?_writeEntries children, Entry.tokens]

theorem error?_writeEntries {inherited : Option TokenType} : (es : Forest NodeId) →
    error? (writeEntries minimal writeAlias inherited es) = (forestTokens es).findSome? fun x =>
      x.2.value.aliases.findSome? fun ref => error? (writeAlias x.1 ref)
  | [] => rfl
  | (_, e) :: es => by
    rw [writeEntries, error?_bind (error?_writeEntry e) fun _ =>
      error?_bind_pure.trans (error?_writeEntries es), forestTokens, List.findSome?_append]

end

end

/-- The tree below a parent is not written for the reason why the first alias in it is not, if any
is not. -/
theorem error?_writeBelow (minimal : Bool) (s : Store) (p : Option NodeId) :
    error? (writeBelow minimal s p) = (forestTokens (s.forest p)).findSome? fun x =>
      x.2.value.aliases.findSome? fun ref => error? (s.aliasText x.1 ref) := by
  rw [writeBelow, error?_bind_pure, error?_writeEntries]

end Tree

/-! ## The tokens that a writer comes by -/

namespace Store

variable {s : Store} (hc : s.Consistent) {top : Option NodeId} {x : NodeId × Token}

theorem mem_forestTokens_forestBelow {visited : List NodeId} {p : Option NodeId} :
    x ∈ forestTokens (s.forestBelow visited p) ↔
      ∃ n ∈ s.children p, ∃ e, s.branch? visited n = some e ∧ x ∈ e.2.tokens := by
  rw [mem_forestTokens, forestBelow_eq]
  simp only [List.mem_filterMap]
  exact ⟨fun ⟨e, ⟨n, hn, he⟩, hx⟩ => ⟨n, hn, e, he, hx⟩, fun ⟨n, hn, e, he, hx⟩ => ⟨e, ⟨n, hn, he⟩, hx⟩⟩

include hc

/-- The walk down passes no other tokens; the induction is on the groups not entered yet. -/
theorem hangsOn_of_mem_forestTokens {p : Option NodeId} {above : List Node}
    (h : s.UpTo top p above) {visited : List NodeId} (hx : x ∈ forestTokens (s.forestBelow visited p)) :
    ∃ n, s.HangsOn top n ∧ n.id = x.1 ∧ n.content = .token x.2 := by
  obtain ⟨n, hn, e, he, hx⟩ := mem_forestTokens_forestBelow.1 hx
  obtain ⟨hstored, rfl⟩ := hc.mem_children_iff.1 hn
  cases hcontent : n.content with
  | token t =>
    rw [branch?, hcontent] at he
    cases he
    obtain rfl := List.mem_singleton.1 hx
    exact ⟨n, ⟨hstored, _, h⟩, rfl, hcontent⟩
  | group g =>
    rw [branch?, hcontent] at he
    simp only at he
    split at he
    · next hv =>
      cases he
      have hlt := unvisited_cons_lt hv.1 hv.2
      exact hangsOn_of_mem_forestTokens (.up hstored (Node.isGroup_iff.2 ⟨g, hcontent⟩) h) hx
    · cases he
  | set | modifier | context | resolver =>
    rw [branch?, hcontent] at he
    cases he
termination_by s.unvisited visited

variable (htop : s.Outermost top)

include htop

/-- The walk down comes to each parent on which nodes hang. -/
theorem UpTo.subset_forestTokens {p : Option NodeId} {above : List Node} (h : s.UpTo top p above) :
    forestTokens (s.forestBelow (above.map Node.id) p) ⊆ forestTokens (s.forest top) := by
  induction h with
  | here => exact List.Subset.refl _
  | @up id g above stored group rest ih =>
    obtain rfl := hc.id_of_node? stored
    have hg : g ∈ s.children g.parent := hc.mem_children_iff.2 ⟨stored, rfl⟩
    obtain ⟨gr, hgr⟩ := Node.isGroup_iff.1 group
    refine List.Subset.trans (fun x hx => ?_) ih
    refine mem_forestTokens_forestBelow.2 ⟨g, hg, (g.order, .group g.id gr _), ?_, hx⟩
    rw [branch?, hgr]
    exact if_pos (rest.fresh hc htop hg group)

/-- The tokens that the writer comes by are those that hang on the top by groups. -/
theorem mem_forestTokens_forest_iff : x ∈ forestTokens (s.forest top) ↔
    ∃ n, s.HangsOn top n ∧ n.id = x.1 ∧ n.content = .token x.2 := by
  constructor
  · exact hangsOn_of_mem_forestTokens hc .here
  · rintro ⟨n, ⟨hstored, above, h⟩, hid, hcontent⟩
    refine h.subset_forestTokens hc htop (mem_forestTokens_forestBelow.2 ⟨n,
      hc.mem_children_iff.2 ⟨hstored, rfl⟩, (n.order, .token n.id x.2), ?_, ?_⟩)
    · rw [branch?, hcontent]
    · rw [hid]
      exact List.mem_singleton.2 rfl

end Store

end DesignTokens
