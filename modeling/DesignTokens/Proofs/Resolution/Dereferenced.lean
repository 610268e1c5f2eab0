/-
What resolution makes of a literal. From a token whose value is an alias the
references lead on, from token to token, to one that holds a literal
(`EndsAt`). A resolved value is that literal with its fields filled in: of the
same shape, with every value of a field where it was, and in the place of an
alias what its target resolves to (`resolve_dereferences`).

No alias is left in it, although a stroke style can have aliases of its own when
it comes into the field of a border: it has been resolved before.
-/
import DesignTokens.Proofs.Resolution.Derivation
import DesignTokens.Store.Batch

namespace DesignTokens

theorem FieldKind.eq_of_ofLiteral?_strokeStyle {lit : Literal} {v : StrokeStyle}
    (h : FieldKind.ofLiteral? .strokeStyle lit = some v) : lit = .strokeStyle v := by
  cases lit with
  | strokeStyle s => exact congrArg Literal.strokeStyle (Option.some.inj h)
  | _ => cases h

namespace Store

variable {s : Store}

/-- Following whole-value aliases from a token ends at a token, which holds a literal. -/
inductive EndsAt (s : Store) : NodeId → NodeId → Literal → Prop
  | literal {id : NodeId} {n : Node} {t : Token} {lit : Literal} (stored : s.node? id = some n)
      (token : n.content = .token t) (held : t.value = .literal lit) : EndsAt s id id lit
  | aliasTo {id holder : NodeId} {n m : Node} {t : Token} {ref : Alias} {lit : Literal}
      (stored : s.node? id = some n) (token : n.content = .token t)
      (held : t.value = .aliasTo ref) (found : s.target ref id = .ok m)
      (ends : EndsAt s m.id holder lit) : EndsAt s id holder lit

/-- There is one way to go, and so one end. -/
theorem EndsAt.unique {id a b : NodeId} {l l' : Literal} (h : s.EndsAt id a l)
    (h' : s.EndsAt id b l') : b = a ∧ l' = l := by
  induction h with
  | literal stored token held =>
    cases h' with
    | literal stored' token' held' =>
      cases stored.symm.trans stored'
      cases token.symm.trans token'
      cases held.symm.trans held'
      exact ⟨rfl, rfl⟩
    | aliasTo stored' token' held' =>
      cases stored.symm.trans stored'
      cases token.symm.trans token'
      cases held.symm.trans held'
  | aliasTo stored token held found _ ih =>
    cases h' with
    | literal stored' token' held' =>
      cases stored.symm.trans stored'
      cases token.symm.trans token'
      cases held.symm.trans held'
    | aliasTo stored' token' held' found' ends' =>
      cases stored.symm.trans stored'
      cases token.symm.trans token'
      cases held.symm.trans held'
      cases found.symm.trans found'
      exact ih ends'

/-- What an alias in a field of a token stands for: the content of the literal that its target
resolves to, which must be of the type that the field takes. -/
def Supplies (s : Store) (holder : NodeId) (k : FieldKind) (ref : Alias) (v : k.Value) : Prop :=
  ∃ m r, s.target ref holder = .ok m ∧ s.resolve m.id = .ok r ∧
    r.type = k.type ∧ k.ofLiteral? r.value = some v

/-- The literal at the end is the one that has been filled in; the tokens on the way pass it on. -/
theorem Yields.exists_endsAt {id : NodeId} {r : Resolved} (h : s.Yields id r) :
    ∃ holder lit, s.EndsAt id holder lit ∧ lit.Filled (s.Supplies holder) r.value := by
  induction h with
  | @literal id n t lit value premises stored token held own found derived filled ih =>
    refine ⟨id, lit, .literal stored token held, filled.mono fun k ref v _ ⟨m, q, hp, hk⟩ => ?_⟩
    exact ⟨m, q, found ref m q hp, resolve_eq_ok_iff.2 (derived ref m q hp), hk⟩
  | aliasTo stored token held found derived own ih =>
    obtain ⟨holder, lit, hends, hfilled⟩ := ih
    exact ⟨holder, lit, .aliasTo stored token held found hends, hfilled⟩

/-- The induction is on the derivation: a stroke style that fills a field is derived itself. -/
theorem Yields.aliases_eq_nil {id : NodeId} {r : Resolved} (h : s.Yields id r) :
    r.value.aliases = [] := by
  induction h with
  | literal premises stored token held own found derived filled ih =>
    refine filled.aliases_eq_nil fun ref v ⟨m, q, hp, _, hv⟩ => ?_
    have hq := ih ref m q hp
    rwa [FieldKind.eq_of_ofLiteral?_strokeStyle hv] at hq
  | aliasTo _ _ _ _ _ _ ih => exact ih

/--
**A resolved value holds no alias.** Whatever a token resolves to, no field of it
is an alias, nor a dash of a stroke style in it, and it is of the type that is
given with it. It is the one literal at the end of the token's aliases, with
each alias in a field of that replaced by what it stands for, and with the same
shape and the same values for the rest.
-/
theorem resolve_dereferences {id : NodeId} {r : Resolved} (h : s.resolve id = .ok r) :
    r.value.aliases = [] ∧ r.value.type = r.type ∧
    ∃ holder lit, (∀ b l, s.EndsAt id b l ↔ b = holder ∧ l = lit) ∧
      lit.Filled (s.Supplies holder) r.value := by
  have hyields : s.Yields id r := resolve_eq_ok_iff.1 h
  obtain ⟨holder, lit, hends, hfilled⟩ := hyields.exists_endsAt
  refine ⟨hyields.aliases_eq_nil, hyields.type_eq, holder, lit, fun b l => ?_, hfilled⟩
  constructor
  · exact hends.unique
  · rintro ⟨rfl, rfl⟩
    exact hends

/-- A border whose style is a stroke with an alias for a dash, and an alias for the border. -/
def framed : Store :=
  let token (id : String) (type : Option TokenType) (value : TokenValue) : Node :=
    ⟨⟨id⟩, none, "a0", .token ⟨id, .none, type, value⟩⟩
  let px (n : Int) : Dimension := ⟨.integer n, .px⟩
  ofNodes [token "frame" none (.aliasTo (.path "edge")),
    token "edge" (some .border) (.literal (.border ⟨.value ⟨.srgb, [.integer 0], none, none⟩,
      .aliasTo (.id ⟨"gap"⟩), .aliasTo (.path "line")⟩)),
    token "line" (some .strokeStyle) (.literal (.strokeStyle
      (.dashed [.aliasTo (.path "gap"), .value (px 3)] .round))),
    token "gap" (some .dimension) (.literal (.dimension (px 2)))]

/-- The dash has become a length in the style of the border. -/
theorem resolve_dereferences_framed :
    let border : Literal := .border ⟨.value ⟨.srgb, [.integer 0], none, none⟩,
      .value ⟨.integer 2, .px⟩,
      .value (.dashed [.value ⟨.integer 2, .px⟩, .value ⟨.integer 3, .px⟩] .round)⟩
    framed.resolve ⟨"frame"⟩ = .ok ⟨.border, border⟩ ∧ border.aliases = [] ∧
      ∃ holder lit, framed.EndsAt ⟨"frame"⟩ holder lit ∧
        lit.Filled (framed.Supplies holder) border := by
  intro border
  have hresolve : framed.resolve ⟨"frame"⟩ = .ok ⟨.border, border⟩ := by decide +kernel
  obtain ⟨haliases, -, holder, lit, hends, hfilled⟩ := resolve_dereferences hresolve
  exact ⟨hresolve, haliases, holder, lit, (hends holder lit).2 ⟨rfl, rfl⟩, hfilled⟩

end Store

end DesignTokens
