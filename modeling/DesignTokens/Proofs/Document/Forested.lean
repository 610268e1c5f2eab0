/-
Nodes that make up a forest in list order (`Forested`). The nodes of a grove do,
where its contents stand below those that may hold them and siblings have
distinct names and ascending keys (`Grove.Formed`). Of ids this asks nothing, so
it holds of a numbered grove as it does of the grove itself.
-/
import DesignTokens.Proofs.Document.Numbered
import DesignTokens.Proofs.OrderKey.Between

namespace DesignTokens

namespace Content

/-- Whether it is an entry of a tree. -/
def isEntry : Content → Bool
  | token _ | group _ => true
  | _ => false

/-- Whether it is an item of a resolver document. -/
def isItem : Content → Bool
  | set _ | modifier _ => true
  | _ => false

/-- Whether it is a context of a modifier. -/
def isContext : Content → Bool
  | context _ => true
  | _ => false

/-- What may stand right below it. -/
def mayHold : Content → Content → Bool
  | group _ | set _ | context _ => isEntry
  | modifier _ => isContext
  | token _ | resolver _ => fun _ => false

end Content

/--
A forest in list order. Each node stands at the top, where only some contents
may, or names as its parent a node before it that may hold it. Ids are distinct,
and so are the names of siblings, whose keys ascend; every key may be given as a
bound for others.
-/
structure Forested (top : Content → Bool) (ns : List Node) : Prop where
  distinct : (ns.map Node.id).Nodup
  parents : ∀ n ∈ ns, (n.parent = none ∧ top n.content) ∨
    ∃ m, [m, n].Sublist ns ∧ n.parent = some m.id ∧ m.content.mayHold n.content
  siblings : ns.Pairwise fun a b => a.parent = b.parent → a.name ≠ b.name ∧ a.order < b.order
  accepted : ∀ n ∈ ns, OrderKey.Accepted n.order

namespace Grove

/-- Contents stand at the top if they may, and below those that may hold them. -/
def Fits (may : Content → Bool) : Grove → Prop
  | nil => True
  | node _ _ content below next => may content ∧ below.Fits content.mayHold ∧ next.Fits may

/-- Every key may be given as a bound. -/
def Accepted : Grove → Prop
  | nil => True
  | node _ order _ below next => OrderKey.Accepted order ∧ below.Accepted ∧ next.Accepted

/-- What makes the nodes of a grove a forest, once ids are distinct. -/
structure Formed (top : Content → Bool) (g : Grove) : Prop where
  orderly : g.Orderly
  fits : g.Fits top
  accepted : g.Accepted

/-- The parent of a node comes before it: it is the node right above it in the grove. -/
theorem Fits.parents {may : Content → Bool} {g : Grove} (h : g.Fits may) {p : Option NodeId}
    {n : Node} (hn : n ∈ g.nodes p) : (n.parent = p ∧ may n.content) ∨
      ∃ m, [m, n].Sublist (g.nodes p) ∧ n.parent = some m.id ∧ m.content.mayHold n.content := by
  induction g generalizing may p with
  | nil => cases hn
  | node id o c below next ihb ihn =>
    obtain ⟨hmay, hbelow, hnext⟩ := h
    rcases List.mem_cons.1 hn with rfl | hn
    · exact .inl ⟨rfl, hmay⟩
    rcases List.mem_append.1 hn with hn | hn
    · have hmem : n ∈ below.nodes (some id) ++ next.nodes p := List.mem_append_left _ hn
      rcases ihb hbelow hn with ⟨hp, hc⟩ | ⟨m, hm, hp⟩
      · exact .inr ⟨⟨id, p, o, c⟩, (List.singleton_sublist.2 hmem).cons_cons _, hp, hc⟩
      · exact .inr ⟨m, (hm.trans (List.sublist_append_left ..)).cons _, hp⟩
    · rcases ihn hnext hn with h | ⟨m, hm, hp⟩
      · exact .inl h
      · exact .inr ⟨m, (hm.trans (List.sublist_append_right ..)).cons _, hp⟩

theorem Accepted.of_mem_nodes {g : Grove} (h : g.Accepted) {p : Option NodeId} {n : Node}
    (hn : n ∈ g.nodes p) : OrderKey.Accepted n.order := by
  induction g generalizing p with
  | nil => cases hn
  | node id o c below next ihb ihn =>
    obtain ⟨horder, hbelow, hnext⟩ := h
    rcases List.mem_cons.1 hn with rfl | hn
    · exact horder
    rcases List.mem_append.1 hn with hn | hn
    · exact ihb hbelow hn
    · exact ihn hnext hn

theorem Formed.forested {top : Content → Bool} {g : Grove} (h : g.Formed top)
    (hn : g.ids.Nodup) : Forested top (g.nodes none) where
  distinct := by rwa [map_id_nodes]
  parents _ hmem := h.fits.parents hmem
  siblings := (pairwise_nodes (apart_none hn) h.orderly).imp And.right
  accepted _ hmem := h.accepted.of_mem_nodes hmem

/-! ## Numbers for ids -/

section

variable (start : String)

theorem Fits.numbered {may : Content → Bool} {g : Grove} (h : g.Fits may) (before : Nat) :
    (g.numbered start before).Fits may := by
  induction g generalizing may before with
  | nil => trivial
  | node id o c below next ihb ihn => exact ⟨h.1, ihb h.2.1 _, ihn h.2.2 _⟩

theorem Accepted.numbered {g : Grove} (h : g.Accepted) (before : Nat) :
    (g.numbered start before).Accepted := by
  induction g generalizing before with
  | nil => trivial
  | node id o c below next ihb ihn => exact ⟨h.1, ihb h.2.1 _, ihn h.2.2 _⟩

end

theorem Formed.scheduled {top : Content → Bool} {g : Grove} (h : g.Formed top)
    (scheme : IdScheme) : (g.scheduled scheme).Formed top := by
  cases scheme with
  | path => exact h
  | sequential start =>
    exact ⟨h.orderly.numbered start 0, h.fits.numbered start 0, h.accepted.numbered start 0⟩

/-- Under either scheme the nodes of a grove with paths for ids are a forest. -/
theorem Formed.forested_scheduled {top : Content → Bool} {g : Grove} (h : g.Formed top)
    (hp : g.Pathed []) (scheme : IdScheme) : Forested top ((g.scheduled scheme).nodes none) :=
  (h.scheduled scheme).forested
    (nodup_ids_scheduled scheme (hp.nodup_ids_of_orderly h.orderly))

end Grove

end DesignTokens
