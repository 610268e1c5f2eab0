/-
Two stores of groups and tokens that mirror each other: the same names lead to
nodes with the same content in both, except that the second spells each alias of
the first by path, and leaves out declared types that come down anyway. Ids,
keys and the order of siblings may be quite different. What a token of the first
resolves to, its counterpart in the second resolves to as well
(`Store.Mirrored.resolve`).

Derivations are carried over step by step: an alias that is spelled by path
calls the counterpart of its old target, and the types agree.
-/
import DesignTokens.Proofs.Document.Resolvable
import DesignTokens.Proofs.Resolution.Derivation
import DesignTokens.Proofs.Resolution.NamePath

namespace DesignTokens

/-- Content with its aliases changed. -/
def Content.respell (g : Alias → Alias) : Content → Content
  | token t => token { t with value := t.value.respell g }
  | c => c

/-- What becomes of content that is written for names and read again. -/
def Content.exported (minimal : Bool) (g : Alias → Alias) (inherited : Option TokenType)
    (c : Content) : Content :=
  (c.respell g).written minimal inherited

theorem Content.name_exported (minimal : Bool) (g : Alias → Alias) (inherited : Option TokenType)
    (c : Content) : (c.exported minimal g inherited).name = c.name := by
  cases c <;> rfl

theorem Content.declaredType_exported_or (minimal : Bool) (g : Alias → Alias)
    (inherited : Option TokenType) (c : Content) :
    (c.exported minimal g inherited).declaredType.or inherited = c.declaredType.or inherited := by
  cases c with
  | token t => exact writtenType_or minimal t.declaredType inherited
  | group g => exact writtenType_or minimal g.declaredType inherited
  | _ => rfl

namespace Store

/-- The same names lead in both stores to what has the same content once it is exported. -/
abbrev Mirrors (minimal : Bool) (s t : Store) : Prop :=
  s.asNamespace.Mirrors none t.asNamespace none fun j c d => d = c.exported minimal s.spell j

/-- Nodes to which the same names lead, the second one with the content of the first exported. -/
def Paired (minimal : Bool) (s t : Store) (n m : Node) : Prop :=
  ∃ names j, s.Leads names n j ∧ t.Leads names m j ∧
    m.content = n.content.exported minimal s.spell j

section

variable {minimal : Bool} {s t : Store} {n m : Node}

theorem isToken_exported {n m : Node} {g : Alias → Alias} {j : Option TokenType}
    (h : m.content = n.content.exported minimal g j) : m.isToken ↔ n.isToken := by
  rw [Node.isToken_iff, Node.isToken_iff, h]
  cases n.content <;> simp [Content.exported, Content.respell, Content.written]

theorem name_exported {n m : Node} {g : Alias → Alias} {j : Option TokenType}
    (h : m.content = n.content.exported minimal g j) : m.name = n.name := by
  rw [Node.name, h, Content.name_exported, Node.name]

/-- Tokens are called by the same names where names lead to the same names. -/
theorem Calls.transfer {Q : Node → Node → Prop}
    (h : ∀ names n j, s.Leads names n j →
      ∃ m, t.Leads names m j ∧ m.name = n.name ∧ (n.isToken → m.isToken) ∧ Q n m)
    {names : List String} (hn : s.Calls none none names n) :
    ∃ m, t.Calls none none names m ∧ Q n m := by
  obtain ⟨htoken, j, ⟨around, hnames, hleads⟩ | ⟨hne, hroot, hleads⟩⟩ := hn
  · obtain ⟨m, hm, hname, htm, hq⟩ := h _ _ _ hleads
    exact ⟨m, ⟨htm htoken, j, .inl ⟨around, hname ▸ hnames, hm⟩⟩, hq⟩
  · obtain ⟨m, hm, hname, htm, hq⟩ := h _ _ _ hleads
    exact ⟨m, ⟨htm htoken, j, .inr ⟨hne, hname.trans hroot, hm⟩⟩, hq⟩

theorem Mirrors.calls (h : Mirrors minimal s t) {names : List String}
    (hn : s.Calls none none names n) :
    ∃ m, t.Calls none none names m ∧ Paired minimal s t n m := by
  refine hn.transfer fun names n j hleads => ?_
  obtain ⟨m, hm, hc⟩ := h.forth _ _ _ hleads
  exact ⟨m, hm, name_exported hc, (isToken_exported hc).2, names, j, hleads, hm, hc⟩

theorem Mirrors.calls_back (h : Mirrors minimal s t) {names : List String}
    (hm : t.Calls none none names m) :
    ∃ n, s.Calls none none names n ∧ Paired minimal s t n m := by
  refine hm.transfer (Q := fun m n => Paired minimal s t n m) fun names m j hleads => ?_
  obtain ⟨n, hn, hc⟩ := h.back _ _ _ hleads
  exact ⟨n, hn, (name_exported hc).symm, (isToken_exported hc).1, names, j, hn, hleads, hc⟩

variable (hs : s.Consistent) (ht : t.Consistent)

include hs

theorem Paired.stored (h : Paired minimal s t n m) : s.node? n.id = some n := by
  obtain ⟨_, _, hn, _⟩ := h
  exact (hn.stored hs).1

include ht

/-- Counterparts have the same type of their own. -/
theorem Paired.hasType_iff (h : Paired minimal s t n m) {type : TokenType} :
    t.HasType m type ↔ s.HasType n type := by
  obtain ⟨names, j, hn, hm, hc⟩ := h
  have hown : t.ownType m = s.ownType n := by
    show m.content.declaredType.or (t.inheritedType m) =
      n.content.declaredType.or (s.inheritedType n)
    rw [(hm.stored ht).2.2, (hn.stored hs).2.2, hc, Content.declaredType_exported_or]
  rw [← ownType_eq_some_iff, ← ownType_eq_some_iff, hown]

end

/-- A store and its mirror, as they must be for names to lead from the one to the other. -/
structure Mirrored (minimal : Bool) (s t : Store) : Prop where
  consistent : s.Consistent
  mirror_consistent : t.Consistent
  plain : s.Plain
  mirror_plain : t.Plain
  fit : ∀ n ∈ s.nodes, Name.Fit n.name
  groups : ∀ n ∈ s.nodes, n.isGroup → n.name ≠ rootTokenName
  mirrors : Mirrors minimal s t

namespace Mirrored

variable {minimal : Bool} {s t : Store} (h : Mirrored minimal s t)

include h

/-- The names in the mirror fit as those of its counterparts do. -/
theorem mirror_fit : ∀ m ∈ t.nodes, Name.Fit m.name := by
  intro m hm
  obtain ⟨names, hleads⟩ := h.mirror_plain.leads h.mirror_consistent hm
  obtain ⟨n, hn, hc⟩ := h.mirrors.back _ _ _ hleads
  have hn : s.Leads names n _ := hn
  rw [name_exported hc]
  exact h.fit n (h.consistent.node?_eq_some_iff.1 (hn.stored h.consistent).1).1

/-- An alias spelled by path refers to the counterpart of its target. -/
theorem target {ref : Alias} {holder : NodeId} (holder' : NodeId) {n : Node}
    (hn : s.target ref holder = .ok n) :
    ∃ m, t.target (s.spell ref) holder' = .ok m ∧ Paired minimal s t n m := by
  obtain ⟨dotted, hspell, hcalls⟩ := h.plain.of_target h.consistent h.fit h.groups hn
  obtain ⟨m, hm, hpaired⟩ := h.mirrors.calls hcalls
  refine ⟨m, ?_, hpaired⟩
  rw [hspell]
  simp only [Store.target,
    (h.mirror_plain.tokenAt?_eq_some_iff h.mirror_consistent h.mirror_fit).2 hm]

theorem yields {id : NodeId} {r : Resolved} (hy : s.Yields id r) {n m : Node}
    (hn : s.node? id = some n) (hp : Paired minimal s t n m) : t.Yields m.id r := by
  induction hy generalizing n m with
  | @literal id n' u lit value premises stored token held own found derived filled ih =>
    cases stored.symm.trans hn
    have htype := (hp.hasType_iff h.consistent h.mirror_consistent).2 own
    obtain ⟨names, j, hln, hlm, hc⟩ := hp
    rw [token] at hc
    have hvalue : (u.value.respell s.spell) = .literal (lit.respell s.spell) := by
      rw [held]
      rfl
    rw [← lit.type_respell s.spell] at htype ⊢
    refine .literal (fun ref' m' r => ∃ ref n', premises ref n' r ∧ Paired minimal s t n' m' ∧
        t.target ref' m.id = .ok m') (hlm.stored h.mirror_consistent).1 hc hvalue htype ?_ ?_ ?_
    · rintro ref' m' r ⟨ref, n', -, -, htarget⟩
      exact htarget
    · rintro ref' m' r ⟨ref, n', hprem, hpaired, -⟩
      exact ih ref n' r hprem (hpaired.stored h.consistent) hpaired
    · refine filled.respell fun k ref v _ ⟨n', r, hprem, hk⟩ => ?_
      obtain ⟨m', htarget, hpaired⟩ := h.target m.id (found ref n' r hprem)
      exact ⟨m', r, ⟨ref, n', hprem, hpaired, htarget⟩, hk⟩
  | @aliasTo id n' a u ref r stored token held found derived own ih =>
    cases stored.symm.trans hn
    have htype : ∀ type, t.HasType m type → s.HasType n' type :=
      fun _ => (hp.hasType_iff h.consistent h.mirror_consistent).1
    obtain ⟨names, j, hln, hlm, hc⟩ := hp
    rw [token] at hc
    have hvalue : (u.value.respell s.spell) = .aliasTo (s.spell ref) := by
      rw [held]
      rfl
    obtain ⟨b, htarget, hpaired⟩ := h.target m.id found
    exact .aliasTo (hlm.stored h.mirror_consistent).1 hc hvalue htarget
      (ih (hpaired.stored h.consistent) hpaired) fun type ht => own type (htype type ht)

/-- Counterparts resolve alike. -/
theorem resolve {n m : Node} (hp : Paired minimal s t n m) {r : Resolved}
    (hr : s.resolve n.id = .ok r) : t.resolve m.id = .ok r := by
  exact resolve_eq_ok_iff.2 (h.yields (resolve_eq_ok_iff.1 hr) (hp.stored h.consistent) hp)

variable (hr : s.Resolvable)

include hr

/-- If the tokens of the first store resolve, so do those of the second. -/
theorem resolvable : t.Resolvable := by
  intro m hm htoken
  obtain ⟨names, hleads⟩ := h.mirror_plain.leads h.mirror_consistent hm
  obtain ⟨n, hn, hc⟩ := h.mirrors.back _ _ _ hleads
  have hp : Paired minimal s t n m := ⟨names, _, hn, hleads, hc⟩
  have hmem := (h.consistent.node?_eq_some_iff.1 (hp.stored h.consistent)).1
  obtain ⟨r, hnr⟩ := hr n hmem ((isToken_exported hc).1 htoken)
  exact ⟨r, h.resolve hp hnr⟩

/-- A dotted path finds the same in both, and what it finds resolves to the same. -/
theorem map_tokenAt? (dotted : String) (from? : Option NodeId) :
    (t.tokenAt? dotted from?).map (fun m => t.resolve m.id) =
      (s.tokenAt? dotted from?).map fun n => s.resolve n.id := by
  cases hn : s.tokenAt? dotted from? with
  | some n =>
    have hcalls := (h.plain.tokenAt?_eq_some_iff h.consistent h.fit).1 hn
    obtain ⟨m, hm, hp⟩ := h.mirrors.calls hcalls
    have hmem := (h.consistent.node?_eq_some_iff.1 (hp.stored h.consistent)).1
    obtain ⟨r, hnr⟩ := hr n hmem hcalls.1
    rw [(h.mirror_plain.tokenAt?_eq_some_iff h.mirror_consistent h.mirror_fit).2 hm,
      Option.map_some, Option.map_some, hnr, h.resolve hp hnr]
  | none =>
    cases hm : t.tokenAt? dotted from? with
    | none => rfl
    | some m =>
      have hcalls := (h.mirror_plain.tokenAt?_eq_some_iff h.mirror_consistent h.mirror_fit).1 hm
      obtain ⟨n, hn', -⟩ := h.mirrors.calls_back hcalls
      rw [(h.plain.tokenAt?_eq_some_iff h.consistent h.fit).2 hn'] at hn
      cases hn

end Mirrored

end Store

end DesignTokens
