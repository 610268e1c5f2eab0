/-
What a literal's traversal takes from the action that it runs. The traversal is
put together from that action on the aliases of the literal alone, by `pure`
and `bind`, so that whatever `pure` and `bind` preserve holds of the traversal
if it holds of the action there (`Literal.mapFields_rel`).

Actions that agree on the aliases of a literal traverse it alike, errors
included, so that one without aliases stays as it is; and an error of the
traversal is one of the action on some alias of the literal.
-/
import Mathlib.Control.Basic
import DesignTokens.Proofs.List
import DesignTokens.Value.Literal

namespace DesignTokens

/-- A relation between actions that holds of what they are put together to. -/
structure Stepwise {m : Type → Type} [Monad m] (R : (α : Type) → m α → m α → Prop) : Prop where
  pure : ∀ {α : Type} (a : α), R α (pure a) (pure a)
  bind : ∀ {α β : Type} {x y : m α} {f g : α → m β},
    R α x y → (∀ a, R β (f a) (g a)) → R β (x >>= f) (y >>= g)

section

variable {m : Type → Type} [Monad m] {R : (α : Type) → m α → m α → Prop} (h : Stepwise R)

include h

theorem Stepwise.mapM [LawfulMonad m] {α β : Type} {f g : α → m β}
    {l : List α} (hfg : ∀ a ∈ l, R _ (f a) (g a)) : R _ (l.mapM f) (l.mapM g) := by
  induction l with
  | nil =>
    rw [List.mapM_nil, List.mapM_nil]
    exact h.pure []
  | cons a l ih =>
    rw [List.mapM_cons, List.mapM_cons]
    have hrest := ih fun b hb => hfg b (List.mem_cons_of_mem a hb)
    exact h.bind (hfg a (List.mem_cons_self ..)) fun b => h.bind hrest fun bs => h.pure (b :: bs)

theorem Field.mapM_rel {α : Type} {f g : Alias → m (Field α)}
    (x : Field α) (hfg : ∀ ref ∈ x.aliases, R _ (f ref) (g ref)) : R _ (x.mapM f) (x.mapM g) := by
  cases x with
  | aliasTo ref => exact hfg ref (List.mem_singleton.2 rfl)
  | value v => exact h.pure (Field.value v)

variable {f g : (k : FieldKind) → Alias → m (Field k.Value)}

theorem StrokeStyle.mapFields_rel [LawfulMonad m] (s : StrokeStyle)
    (hfg : ∀ k, ∀ ref ∈ s.aliases, R _ (f k ref) (g k ref)) : R _ (s.mapFields f) (s.mapFields g) := by
  cases s with
  | keyword k => exact h.pure (StrokeStyle.keyword k)
  | dashed ds cap =>
    have hds : R _ (ds.mapM (Field.mapM (f .dimension))) (ds.mapM (Field.mapM (g .dimension))) := by
      refine h.mapM fun d hd => Field.mapM_rel h d fun ref href => ?_
      exact hfg .dimension ref (List.mem_flatMap.2 ⟨d, hd, href⟩)
    exact h.bind hds fun es => h.pure (StrokeStyle.dashed es cap)

theorem Shadow.mapFields_rel (s : Shadow) (hfg : ∀ k, ∀ ref ∈ s.aliases, R _ (f k ref) (g k ref)) :
    R _ (s.mapFields f) (s.mapFields g) := by
  obtain ⟨color, offsetX, offsetY, blur, spread, inset⟩ := s
  simp only [Shadow.aliases, List.mem_append] at hfg
  refine h.bind (Field.mapM_rel h color fun ref hr => hfg .color ref (by simp [hr])) fun _ => ?_
  refine h.bind (Field.mapM_rel h offsetX fun ref hr => hfg .dimension ref (by simp [hr])) fun _ => ?_
  refine h.bind (Field.mapM_rel h offsetY fun ref hr => hfg .dimension ref (by simp [hr])) fun _ => ?_
  refine h.bind (Field.mapM_rel h blur fun ref hr => hfg .dimension ref (by simp [hr])) fun _ => ?_
  cases spread with
  | none => exact h.bind (h.pure none) fun _ => h.pure _
  | some spread =>
    have hspread := Field.mapM_rel h spread fun ref hr => hfg .dimension ref (by simp [hr])
    exact h.bind hspread fun x => h.bind (h.pure (some x)) fun _ => h.pure _

theorem Border.mapFields_rel [LawfulMonad m] (b : Border)
    (hfg : ∀ k, ∀ ref ∈ b.aliases, R _ (f k ref) (g k ref)) : R _ (b.mapFields f) (b.mapFields g) := by
  obtain ⟨color, width, style⟩ := b
  simp only [Border.aliases, List.mem_append] at hfg
  refine h.bind (Field.mapM_rel h color fun ref hr => hfg .color ref (by simp [hr])) fun _ => ?_
  refine h.bind (Field.mapM_rel h width fun ref hr => hfg .dimension ref (by simp [hr])) fun _ => ?_
  cases style with
  | aliasTo ref => exact h.bind (hfg .strokeStyle ref (by simp)) fun _ => h.pure _
  | value s =>
    have hs := StrokeStyle.mapFields_rel h s fun k ref hr => hfg k ref (by simp [hr])
    exact h.bind hs fun s' => h.bind (h.pure (Field.value s')) fun _ => h.pure _

theorem Typography.mapFields_rel (t : Typography)
    (hfg : ∀ k, ∀ ref ∈ t.aliases, R _ (f k ref) (g k ref)) : R _ (t.mapFields f) (t.mapFields g) := by
  simp only [Typography.aliases, List.mem_append] at hfg
  refine h.bind (Field.mapM_rel h t.fontFamily fun ref hr => hfg .fontFamily ref (by simp [hr])) fun _ => ?_
  refine h.bind (Field.mapM_rel h t.fontSize fun ref hr => hfg .dimension ref (by simp [hr])) fun _ => ?_
  refine h.bind (Field.mapM_rel h t.fontWeight fun ref hr => hfg .fontWeight ref (by simp [hr])) fun _ => ?_
  refine h.bind (Field.mapM_rel h t.lineHeight fun ref hr => hfg .number ref (by simp [hr])) fun _ => ?_
  refine h.bind (Field.mapM_rel h t.letterSpacing fun ref hr => hfg .dimension ref (by simp [hr])) fun _ => ?_
  exact h.pure _

theorem Transition.mapFields_rel (t : Transition)
    (hfg : ∀ k, ∀ ref ∈ t.aliases, R _ (f k ref) (g k ref)) : R _ (t.mapFields f) (t.mapFields g) := by
  simp only [Transition.aliases, List.mem_append] at hfg
  refine h.bind (Field.mapM_rel h t.duration fun ref hr => hfg .duration ref (by simp [hr])) fun _ => ?_
  refine h.bind (Field.mapM_rel h t.delay fun ref hr => hfg .duration ref (by simp [hr])) fun _ => ?_
  refine h.bind (Field.mapM_rel h t.timingFunction fun ref hr => hfg .cubicBezier ref (by simp [hr])) fun _ => ?_
  exact h.pure _

theorem GradientStop.mapFields_rel (s : GradientStop)
    (hfg : ∀ k, ∀ ref ∈ s.aliases, R _ (f k ref) (g k ref)) : R _ (s.mapFields f) (s.mapFields g) := by
  simp only [GradientStop.aliases, List.mem_append] at hfg
  refine h.bind (Field.mapM_rel h s.color fun ref hr => hfg .color ref (by simp [hr])) fun _ => ?_
  refine h.bind (Field.mapM_rel h s.position fun ref hr => hfg .number ref (by simp [hr])) fun _ => ?_
  exact h.pure _

/-- What steps preserve passes from the action on the aliases to the traversal. -/
theorem Literal.mapFields_rel [LawfulMonad m] (lit : Literal)
    (hfg : ∀ k, ∀ ref ∈ lit.aliases, R _ (f k ref) (g k ref)) :
    R _ (lit.mapFields f) (lit.mapFields g) := by
  cases lit with
  | color | dimension | duration | number | fontFamily | fontWeight | cubicBezier =>
    exact h.pure _
  | strokeStyle s => exact h.bind (s.mapFields_rel h hfg) fun s' => h.pure (Literal.strokeStyle s')
  | shadow layers =>
    refine h.bind ?_ fun layers' => h.pure (Literal.shadow layers')
    have hlayer : ∀ s ∈ layers.toList, R _ (s.mapFields f) (s.mapFields g) := by
      intro s hs
      refine s.mapFields_rel h fun k ref hr => hfg k ref ?_
      exact List.mem_flatMap.2 ⟨s, hs, hr⟩
    cases layers with
    | one s =>
      have hs := hlayer s (List.mem_singleton.2 rfl)
      exact h.bind hs fun s' => h.pure (OneOrList.one s')
    | many ss => exact h.bind (h.mapM hlayer) fun ss' => h.pure (OneOrList.many ss')
  | border b => exact h.bind (b.mapFields_rel h hfg) fun b' => h.pure (Literal.border b')
  | typography t => exact h.bind (t.mapFields_rel h hfg) fun t' => h.pure (Literal.typography t')
  | transition t => exact h.bind (t.mapFields_rel h hfg) fun t' => h.pure (Literal.transition t')
  | gradient stops =>
    have hstops : R _ (stops.mapM (GradientStop.mapFields f)) (stops.mapM (GradientStop.mapFields g)) := by
      refine h.mapM fun s hs => s.mapFields_rel h fun k ref hr => hfg k ref ?_
      exact List.mem_flatMap.2 ⟨s, hs, hr⟩
    exact h.bind hstops fun stops' => h.pure (Literal.gradient stops')

end

theorem stepwise_eq {m : Type → Type} [Monad m] : Stepwise fun α (x y : m α) => x = y where
  pure _ := rfl
  bind hxy hfg := by rw [hxy, funext hfg]

/-- Actions that agree on the aliases of a literal traverse it alike. -/
theorem Literal.mapFields_congr {m : Type → Type} [Monad m] [LawfulMonad m]
    {f g : (k : FieldKind) → Alias → m (Field k.Value)} {lit : Literal}
    (hfg : ∀ k, ∀ ref ∈ lit.aliases, f k ref = g k ref) : lit.mapFields f = lit.mapFields g :=
  lit.mapFields_rel stepwise_eq hfg

/-! ## Aliases left where they are -/

section

variable {m : Type → Type} [Monad m]

theorem Field.mapM_pure {α : Type} (x : Field α) :
    x.mapM (fun ref => (pure (.aliasTo ref) : m (Field α))) = pure x := by
  cases x <;> rfl

variable [LawfulMonad m]

theorem StrokeStyle.mapFields_pure (s : StrokeStyle) :
    s.mapFields (fun _ ref => (pure (.aliasTo ref) : m (Field _))) = pure s := by
  cases s with
  | keyword k => rfl
  | dashed ds cap => simp [StrokeStyle.mapFields, funext Field.mapM_pure, mapM_pure_eq]

theorem Shadow.mapFields_pure (s : Shadow) :
    s.mapFields (fun _ ref => (pure (.aliasTo ref) : m (Field _))) = pure s := by
  obtain ⟨_, _, _, _, spread, _⟩ := s
  cases spread <;> simp [Shadow.mapFields, Field.mapM_pure]

theorem Border.mapFields_pure (b : Border) :
    b.mapFields (fun _ ref => (pure (.aliasTo ref) : m (Field _))) = pure b := by
  obtain ⟨_, _, style⟩ := b
  cases style <;> simp [Border.mapFields, Field.mapM_pure, StrokeStyle.mapFields_pure]

theorem GradientStop.mapFields_pure (s : GradientStop) :
    s.mapFields (fun _ ref => (pure (.aliasTo ref) : m (Field _))) = pure s := by
  simp [GradientStop.mapFields, Field.mapM_pure]

/-- An action that leaves each alias where it is leaves the literal as it is. -/
theorem Literal.mapFields_pure (lit : Literal) :
    lit.mapFields (fun _ ref => (pure (.aliasTo ref) : m (Field _))) = pure lit := by
  cases lit with
  | color | dimension | duration | number | fontFamily | fontWeight | cubicBezier => rfl
  | strokeStyle s => simp [Literal.mapFields, StrokeStyle.mapFields_pure]
  | shadow layers =>
    cases layers <;>
      simp [Literal.mapFields, OneOrList.mapM, funext Shadow.mapFields_pure, mapM_pure_eq]
  | border b => simp [Literal.mapFields, Border.mapFields_pure]
  | typography t => simp [Literal.mapFields, Typography.mapFields, Field.mapM_pure]
  | transition t => simp [Literal.mapFields, Transition.mapFields, Field.mapM_pure]
  | gradient stops => simp [Literal.mapFields, funext GradientStop.mapFields_pure, mapM_pure_eq]

/-- A literal without aliases stays as it is. -/
theorem Literal.mapFields_of_aliases_eq_nil {f : (k : FieldKind) → Alias → m (Field k.Value)}
    {lit : Literal} (h : lit.aliases = []) : lit.mapFields f = pure lit := by
  rw [← Literal.mapFields_pure lit]
  exact Literal.mapFields_congr fun k ref href => absurd href (h ▸ List.not_mem_nil)

end

/-! ## Errors -/

/-- What holds of every error of its parts holds of every error of an action. -/
theorem stepwise_errors {ε : Type} (E : ε → Prop) :
    Stepwise fun α (x _ : Except ε α) => ∀ e, x = .error e → E e where
  pure _ _ he := nomatch he
  bind {_ _ x _ _ _} hx hf e he := by
    cases x with
    | error e' =>
      cases he
      exact hx e rfl
    | ok a => exact hf a e he

/-- An error of the traversal is one of its action on some alias of the literal. -/
theorem Literal.exists_of_mapFields_error {ε : Type}
    {f : (k : FieldKind) → Alias → Except ε (Field k.Value)} {lit : Literal} {e : ε}
    (h : lit.mapFields f = .error e) : ∃ k, ∃ ref ∈ lit.aliases, f k ref = .error e := by
  have hrel := lit.mapFields_rel (g := f)
    (stepwise_errors fun e => ∃ k, ∃ ref ∈ lit.aliases, f k ref = .error e)
    fun k ref href e he => ⟨k, ref, href, he⟩
  exact hrel e h

end DesignTokens
