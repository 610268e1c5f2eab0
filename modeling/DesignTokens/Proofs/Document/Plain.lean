/-
Groves of groups and tokens alone. Where nothing lies below a token and siblings
have distinct names, the store of the grove is plain (`Grove.plain_ofNodes`):
each node hangs on a root by the groups that it lies below in the grove. The
grove of a tree that was read is of this kind, under either scheme of ids.
-/
import DesignTokens.Proofs.Document.Numbered
import DesignTokens.Proofs.Store.Rooted

namespace DesignTokens

namespace Grove

/-- The names of the topmost nodes. -/
def names : Grove → List String
  | nil => []
  | node _ _ content _ next => content.name :: next.names

/-- Groups and tokens, with nothing below a token and distinct names among siblings. -/
def Plain : Grove → Prop
  | nil => True
  | node _ _ content below next =>
    ((∃ t, content = .token t) ∧ below = nil ∨ ∃ g, content = .group g) ∧
      content.name ∉ next.names ∧ below.Plain ∧ next.Plain

theorem map_name_heads (g : Grove) (p : Option NodeId) : (g.heads p).map Node.name = g.names := by
  induction g with
  | nil => rfl
  | node id o c below next ihb ihn => rw [heads, names, List.map_cons, ihn, Node.name]

theorem Plain.nodup_names {g : Grove} (h : g.Plain) : g.names.Nodup := by
  induction g with
  | nil => exact .nil
  | node id o c below next ihb ihn => exact List.nodup_cons.2 ⟨h.2.1, ihn h.2.2.2⟩

/-! ## The store of a grove -/

section

variable {s : Store} {g : Grove} (h : g.Plain)

include h

/-- Each node has the groups around it that it lies below. -/
theorem Plain.around_of_mem {p : Option NodeId} (hs : ∀ n ∈ g.nodes p, s.node? n.id = some n)
    {above : List Node} (ha : s.Around p above) {n : Node} (hn : n ∈ g.nodes p) :
    (n.isToken ∨ n.isGroup) ∧ ∃ around, s.Around n.parent around := by
  induction g generalizing p above with
  | nil => cases hn
  | node id o c below next ihb ihn =>
    obtain ⟨hkind, -, hbelow, hnext⟩ := h
    rw [nodes, List.forall_mem_cons, List.forall_mem_append] at hs
    rcases List.mem_cons.1 hn with he | hn
    · subst he
      refine ⟨?_, above, ha⟩
      rw [Node.isToken_iff, Node.isGroup_iff]
      exact hkind.imp_left And.left
    rcases List.mem_append.1 hn with hn | hn
    · obtain ⟨-, hnil⟩ | ⟨gr, hgr⟩ := hkind
      · rw [hnil] at hn
        cases hn
      · exact ihb hbelow hs.2.1 (.up hs.1 (Node.isGroup_iff.2 ⟨gr, hgr⟩) ha) hn
    · exact ihn hnext hs.2.2 ha hn

theorem Plain.nodup_names_children (hs : g.Holds s) {i : NodeId} (hi : i ∈ g.ids) :
    ((s.children (some i)).map Node.name).Nodup := by
  induction g with
  | nil => cases hi
  | node id o c below next ihb ihn =>
    obtain ⟨-, -, hbelow, hnext⟩ := h
    rcases List.mem_cons.1 hi with he | hi
    · rw [he, hs.1, map_name_heads]
      exact hbelow.nodup_names
    rcases List.mem_append.1 hi with hi | hi
    · exact ihb hbelow hs.2.1 hi
    · exact ihn hnext hs.2.2 hi

variable (hn : g.ids.Nodup) (hk : g.Keyed)

include hn hk

/-- The store of such a grove is plain. -/
theorem plain_ofNodes : (Store.ofNodes (g.nodes none)).Plain := by
  have hc := (Store.reachable_ofNodes (g.nodes none)).consistent
  have hnodes := Store.nodes_ofNodes (nodup_nodes hn)
  have hstored : ∀ n ∈ g.nodes none, (Store.ofNodes (g.nodes none)).node? n.id = some n := by
    intro n hmem
    rw [hc.node?_eq_some_iff, hnodes]
    exact ⟨hmem, rfl⟩
  have hnames : ∀ n ∈ g.nodes none,
      (((Store.ofNodes (g.nodes none)).children n.parent).map Node.name).Nodup := by
    intro n hmem
    rcases (of_mem_nodes hmem).2 with ⟨hp, -⟩ | ⟨i, hi, hp⟩
    · rw [hp, roots_ofNodes hn hk, map_name_heads]
      exact h.nodup_names
    · rw [hp]
      exact h.nodup_names_children (holds_ofNodes hn hk) hi
  constructor
  · rw [hnodes]
    exact fun n hmem => (h.around_of_mem hstored .root hmem).1
  · rw [hnodes]
    exact fun n hmem => (h.around_of_mem hstored .root hmem).2
  · intro a ha b hb hp hname
    have hca := hc.mem_children_iff_mem_nodes.2 ⟨ha, rfl⟩
    have hcb := hc.mem_children_iff_mem_nodes.2 ⟨hb, hp.symm⟩
    exact List.inj_on_of_nodup_map (hnames a (hnodes ▸ ha)) hca hcb hname

end

/-! ## Numbers for ids -/

theorem names_numbered (start : String) (before : Nat) (g : Grove) :
    (g.numbered start before).names = g.names := by
  induction g generalizing before with
  | nil => rfl
  | node id o c below next ihb ihn => rw [numbered, names, names, ihn]

theorem plain_numbered (start : String) (before : Nat) {g : Grove} (h : g.Plain) :
    (g.numbered start before).Plain := by
  induction g generalizing before with
  | nil => trivial
  | node id o c below next ihb ihn =>
    obtain ⟨hkind, hname, hbelow, hnext⟩ := h
    refine ⟨hkind.imp_left fun ht => ⟨ht.1, ?_⟩, ?_, ihb _ hbelow, ihn _ hnext⟩
    · rw [ht.2]
      rfl
    · rwa [names_numbered]

theorem keyed_numbered (start : String) (before : Nat) {g : Grove} (h : g.Keyed) :
    (g.numbered start before).Keyed :=
  keyed_iff.2 ((keyed_iff.1 h).numbered start before)

theorem plain_scheduled (scheme : IdScheme) {g : Grove} (h : g.Plain) :
    (g.scheduled scheme).Plain := by
  cases scheme with
  | path => exact h
  | sequential start => exact plain_numbered start 0 h

theorem keyed_scheduled (scheme : IdScheme) {g : Grove} (h : g.Keyed) :
    (g.scheduled scheme).Keyed := by
  cases scheme with
  | path => exact h
  | sequential start => exact keyed_numbered start 0 h

end Grove

/-! ## Trees -/

variable {ι : Type}

theorem names_forestGrove (names : List String) (es : List (String × Entry ι)) :
    (forestGrove names es).names = es.map fun e => e.2.name := by
  induction es with
  | nil => rfl
  | cons e es ih =>
    obtain ⟨order, e⟩ := e
    cases e <;> simp [forestGrove, Entry.grove, Grove.names, ih] <;> rfl

mutual

theorem Entry.plain_grove {names : List String} {order : String} {next : Grove}
    {inherited : Option TokenType} (hnext : next.Plain) : (e : Entry ι) → e.Writable inherited →
    e.name ∉ next.names → (e.grove names order next).Plain
  | .token _ t, _, hname => ⟨.inl ⟨⟨t, rfl⟩, rfl⟩, hname, trivial, hnext⟩
  | .group _ g children, h, hname =>
    ⟨.inr ⟨g, rfl⟩, hname, plain_forestGrove children h.2, hnext⟩

/-- The grove of a tree with distinct names among siblings. -/
theorem plain_forestGrove {names : List String} {inherited : Option TokenType} :
    (es : List (String × Entry ι)) → ForestWritable inherited es → (forestGrove names es).Plain
  | [], _ => trivial
  | (_, e) :: es, h => by
    refine Entry.plain_grove (plain_forestGrove es h.2.2) e h.1 fun hm => ?_
    rw [names_forestGrove] at hm
    obtain ⟨e', he', hname⟩ := List.mem_map.1 hm
    exact h.2.1 e' he' hname

end

end DesignTokens
