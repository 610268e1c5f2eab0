/-
Namespaces by what can be seen of them: which things stand at a place, what
each of them is, and which place lies below it. A store is one, whose places are
parents, and so is a forest of entries. Names of groups lead from a place down
to a thing, and the types that the groups declare come down with them (`Leads`).

Where each step into one namespace can be followed by a step into another, so
can the whole way (`Leads.simulate`). Namespaces of which each follows the other
mirror each other (`Mirrors.of_steps`). Nothing is said about order, ids or
keys, which may all differ.
-/
import DesignTokens.Node

namespace DesignTokens

/-- The name by which a group is entered, and the type that comes down inside. -/
def Content.entrance? (inherited : Option TokenType) : Content → Option (String × Option TokenType)
  | group g => some (g.name, g.declaredType.or inherited)
  | _ => none

theorem Content.entrance?_eq_some_iff {inherited type : Option TokenType} {name : String}
    {c : Content} : c.entrance? inherited = some (name, type) ↔
      ∃ g, c = .group g ∧ g.name = name ∧ g.declaredType.or inherited = type := by
  cases c <;> simp [entrance?]

/-- What stands at a place, what it is, and the place below it. -/
structure Namespace (P α : Type) where
  holds : P → α → Prop
  content : α → Content
  below : α → P

namespace Namespace

variable {P Q α β : Type}

/-- The names of groups lead from a place, to which a type comes down, to a thing and its type. -/
inductive Leads (S : Namespace P α) : Option TokenType → P → List String → α → Option TokenType → Prop
  | here {i : Option TokenType} {p : P} {a : α} (holds : S.holds p a) : Leads S i p [] a i
  | through {i j : Option TokenType} {p : P} {a b : α} {g : Group} {around : List String}
      (holds : S.holds p b) (group : S.content b = .group g)
      (leads : Leads S (g.declaredType.or i) (S.below b) around a j) :
      Leads S i p (g.name :: around) a j

namespace Leads

variable {S : Namespace P α} {T : Namespace Q β} {i j : Option TokenType} {p : P} {a b : α}
  {around : List String}

theorem nil_iff : S.Leads i p [] a j ↔ S.holds p a ∧ i = j := by
  constructor
  · intro h
    cases h with
    | here ha => exact ⟨ha, rfl⟩
  · rintro ⟨ha, rfl⟩
    exact .here ha

theorem cons_iff {name : String} : S.Leads i p (name :: around) a j ↔ ∃ b g, S.holds p b ∧
    S.content b = .group g ∧ g.name = name ∧
    S.Leads (g.declaredType.or i) (S.below b) around a j := by
  constructor
  · intro h
    cases h with
    | through hb hg ha => exact ⟨_, _, hb, hg, rfl, ha⟩
  · rintro ⟨b, g, hb, hg, rfl, ha⟩
    exact .through hb hg ha

theorem exists_holds (h : S.Leads i p around a j) : ∃ q, S.holds q a := by
  induction h with
  | here ha => exact ⟨_, ha⟩
  | through _ _ _ ih => exact ih

/-- Each name on the way is that of a group. -/
theorem exists_group (h : S.Leads i p around a j) {name : String} (hname : name ∈ around) :
    ∃ q b g, S.holds q b ∧ S.content b = .group g ∧ g.name = name := by
  induction h with
  | here => cases hname
  | through hb hg _ ih =>
    rcases List.mem_cons.1 hname with he | hname
    · exact ⟨_, _, _, hb, hg, he.symm⟩
    · exact ih hname

/-- One step more, into a group that was led to. -/
theorem snoc {g : Group} (h : S.Leads i p around b j) (group : S.content b = .group g)
    (holds : S.holds (S.below b) a) :
    S.Leads i p (around ++ [g.name]) a (g.declaredType.or j) := by
  induction h with
  | here hb => exact .through hb group (.here holds)
  | through hc hg _ ih => exact .through hc hg (ih group holds)

/-- A way followed step by step. `R` is kept by the places, and `C` holds of what is found there. -/
theorem simulate {R : Option TokenType → P → Q → Prop} {C : Option TokenType → Content → Content → Prop}
    (hC : ∀ i c d, C i c d → c.entrance? i = d.entrance? i)
    (hstep : ∀ i p q a, R i p q → S.holds p a → ∃ b, T.holds q b ∧ C i (S.content a) (T.content b) ∧
      ∀ g, S.content a = .group g → R (g.declaredType.or i) (S.below a) (T.below b))
    {q : Q} (h : S.Leads i p around a j) (hR : R i p q) :
    ∃ b, T.Leads i q around b j ∧ C j (S.content a) (T.content b) := by
  induction h generalizing q with
  | here ha =>
    obtain ⟨b, hb, hc, -⟩ := hstep _ _ _ _ hR ha
    exact ⟨b, .here hb, hc⟩
  | @through i j p a b g around hb hg _ ih =>
    obtain ⟨b', hb', hc, hbelow⟩ := hstep _ _ _ _ hR hb
    obtain ⟨a', ha', hca⟩ := ih (hbelow g hg)
    have hentrance := hC _ _ _ hc
    rw [hg] at hentrance
    obtain ⟨g', hg', hname, htype⟩ := Content.entrance?_eq_some_iff.1 hentrance.symm
    refine ⟨a', ?_, hca⟩
    rw [← hname]
    exact .through hb' hg' (htype ▸ ha')

end Leads

/-- The same names lead to something in both, and what they lead to is related by `C`. -/
structure Mirrors (S : Namespace P α) (p : P) (T : Namespace Q β) (q : Q)
    (C : Option TokenType → Content → Content → Prop) : Prop where
  forth : ∀ names a j, S.Leads none p names a j →
    ∃ b, T.Leads none q names b j ∧ C j (S.content a) (T.content b)
  back : ∀ names b j, T.Leads none q names b j →
    ∃ a, S.Leads none p names a j ∧ C j (S.content a) (T.content b)

namespace Mirrors

variable {S : Namespace P α} {T : Namespace Q β} {p : P} {q : Q}
  {C : Option TokenType → Content → Content → Prop}

/-- Namespaces mirror each other if each step into the one is matched in the other. -/
theorem of_steps {R : Option TokenType → P → Q → Prop}
    (hC : ∀ i c d, C i c d → c.entrance? i = d.entrance? i)
    (hforth : ∀ i p q a, R i p q → S.holds p a → ∃ b, T.holds q b ∧ C i (S.content a) (T.content b) ∧
      ∀ g, S.content a = .group g → R (g.declaredType.or i) (S.below a) (T.below b))
    (hback : ∀ i p q b, R i p q → T.holds q b → ∃ a, S.holds p a ∧ C i (S.content a) (T.content b) ∧
      ∀ g, S.content a = .group g → R (g.declaredType.or i) (S.below a) (T.below b))
    (h : R none p q) : S.Mirrors p T q C where
  forth _ _ _ ha := ha.simulate hC hforth h
  back _ _ _ hb := by
    refine hb.simulate (R := fun i q p => R i p q) (C := fun i d c => C i c d)
      (fun i d c hc => (hC i c d hc).symm) (fun i q p b hR hb => ?_) h
    obtain ⟨a, ha, hc, hbelow⟩ := hback i p q b hR hb
    refine ⟨a, ha, hc, fun g hg => ?_⟩
    have hentrance := hC _ _ _ hc
    rw [hg] at hentrance
    obtain ⟨g', hg', -, htype⟩ := Content.entrance?_eq_some_iff.1 hentrance
    exact htype ▸ hbelow g' hg'

theorem trans {O γ : Type} {U : Namespace O γ} {o : O}
    {D E : Option TokenType → Content → Content → Prop}
    (h : S.Mirrors p T q C) (h' : T.Mirrors q U o D)
    (hE : ∀ j c d e, C j c d → D j d e → E j c e) : S.Mirrors p U o E where
  forth names a j ha := by
    obtain ⟨b, hb, hab⟩ := h.forth names a j ha
    obtain ⟨c, hc, hbc⟩ := h'.forth names b j hb
    exact ⟨c, hc, hE _ _ _ _ hab hbc⟩
  back names c j hc := by
    obtain ⟨b, hb, hbc⟩ := h'.back names c j hc
    obtain ⟨a, ha, hab⟩ := h.back names b j hb
    exact ⟨a, ha, hE _ _ _ _ hab hbc⟩

theorem symm (h : S.Mirrors p T q C) : T.Mirrors q S p fun j d c => C j c d :=
  ⟨h.back, h.forth⟩

end Mirrors

end Namespace

end DesignTokens
