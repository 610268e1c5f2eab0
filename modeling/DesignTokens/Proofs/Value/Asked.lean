/-
What a writer asks for. Writing a value asks an action for the text of each of
the value's aliases, in the order of `aliases`, and the rest follows from those
texts alone: it is `aliases.mapM` with a plain function behind it, whatever the
action does besides (`TokenValue.write_eq`).

`InStep` is the reason: two writers of one value ask two actions for the same
aliases, step by step, and end alike. One of the two may have the texts at hand
in a list, from which it takes one after another.

So a value is not written for the reason why the first of its aliases is not that
has no text, and nothing else of it makes the writer fail.
-/
import DesignTokens.Proofs.Outcome
import DesignTokens.Value.Writer

namespace DesignTokens

/-- Actions that ask for the texts of the same aliases, one after another, and go on in step from
each text: to the same end, with nothing done besides. -/
inductive InStep {m n : Type → Type} [Monad m] [Monad n] (f : Alias → m String)
    (g : Alias → n String) {α : Type} : List Alias → m α → n α → Prop
  | done (a : α) : InStep f g [] (pure a) (pure a)
  | ask {ref : Alias} {refs : List Alias} {x : String → m α} {y : String → n α}
      (rest : ∀ text, InStep f g refs (x text) (y text)) :
      InStep f g (ref :: refs) (f ref >>= x) (g ref >>= y)

section

variable {m n : Type → Type} [Monad m] [Monad n] {f : Alias → m String} {g : Alias → n String}

/-- One alias, and its text as a string. -/
theorem inStep_text (ref : Alias) :
    InStep f g [ref] (do return Json.string (← f ref)) (do return Json.string (← g ref)) :=
  .ask fun text => .done (Json.string text)

theorem Field.inStep_write {α : Type} (toJson : α → Json) (x : Field α) :
    InStep f g x.aliases (x.write f toJson) (x.write g toJson) := by
  cases x with
  | aliasTo ref => exact inStep_text ref
  | value v => exact .done (toJson v)

variable [LawfulMonad m] [LawfulMonad n]

namespace InStep

variable {α β : Type} {refs refs' : List Alias} {x : m α} {y : n α}

theorem bind {x' : α → m β} {y' : α → n β} (h : InStep f g refs x y)
    (h' : ∀ a, InStep f g refs' (x' a) (y' a)) :
    InStep f g (refs ++ refs') (x >>= x') (y >>= y') := by
  induction h with
  | done a =>
    rw [pure_bind, pure_bind]
    exact h' a
  | ask _ ih =>
    rw [bind_assoc, bind_assoc]
    exact .ask ih

/-- What goes on without asking for more. -/
theorem last {x' : α → m β} {y' : α → n β} (h : InStep f g refs x y)
    (h' : ∀ a, InStep f g [] (x' a) (y' a)) : InStep f g refs (x >>= x') (y >>= y') := by
  have hend := h.bind h'
  rwa [List.append_nil] at hend

theorem mapM {l : List α} {aliases : α → List Alias} {x : α → m β} {y : α → n β}
    (h : ∀ a, InStep f g (aliases a) (x a) (y a)) :
    InStep f g (l.flatMap aliases) (l.mapM x) (l.mapM y) := by
  induction l with
  | nil =>
    rw [List.mapM_nil, List.mapM_nil]
    exact .done []
  | cons a l ih =>
    rw [List.mapM_cons, List.mapM_cons, List.flatMap_cons]
    exact (h a).bind fun b => ih.last fun bs => .done (b :: bs)

end InStep

/-! ## Shape by shape -/

theorem StrokeStyle.inStep_write (s : StrokeStyle) :
    InStep f g s.aliases (s.write f) (s.write g) := by
  cases s with
  | keyword k => exact .done (Keyword.toJson k)
  | dashed ds cap => exact (InStep.mapM (Field.inStep_write _)).last fun _ => .done _

theorem Shadow.inStep_write (s : Shadow) : InStep f g s.aliases (s.write f) (s.write g) := by
  obtain ⟨color, offsetX, offsetY, blur, spread, inset⟩ := s
  simp only [Shadow.aliases, List.append_assoc]
  refine (color.inStep_write _).bind fun _ => (offsetX.inStep_write _).bind fun _ =>
    (offsetY.inStep_write _).bind fun _ => (blur.inStep_write _).bind fun _ => ?_
  cases spread with
  | none => exact (InStep.done (f := f) (g := g) ([] : Members)).last fun _ => .done _
  | some spread => exact (spread.inStep_write _).last fun w =>
      (InStep.done (f := f) (g := g) [("spread", w)]).last fun _ => .done _

theorem Border.inStep_write (b : Border) : InStep f g b.aliases (b.write f) (b.write g) := by
  obtain ⟨color, width, style⟩ := b
  simp only [Border.aliases, List.append_assoc]
  refine (color.inStep_write _).bind fun _ => (width.inStep_write _).bind fun _ => ?_
  cases style with
  | aliasTo ref => exact .ask fun text =>
      (InStep.done (f := f) (g := g) (Json.string text)).last fun _ => .done _
  | value s => exact s.inStep_write.last fun _ => .done _

theorem Typography.inStep_write (t : Typography) :
    InStep f g t.aliases (t.write f) (t.write g) := by
  simp only [Typography.aliases, List.append_assoc]
  exact (t.fontFamily.inStep_write _).bind fun _ => (t.fontSize.inStep_write _).bind fun _ =>
    (t.fontWeight.inStep_write _).bind fun _ => (t.lineHeight.inStep_write _).bind fun _ =>
    (t.letterSpacing.inStep_write _).last fun _ => .done _

theorem Transition.inStep_write (t : Transition) :
    InStep f g t.aliases (t.write f) (t.write g) := by
  simp only [Transition.aliases, List.append_assoc]
  exact (t.duration.inStep_write _).bind fun _ => (t.delay.inStep_write _).bind fun _ =>
    (t.timingFunction.inStep_write _).last fun _ => .done _

theorem GradientStop.inStep_write (s : GradientStop) :
    InStep f g s.aliases (s.write f) (s.write g) :=
  (s.color.inStep_write _).bind fun _ => (s.position.inStep_write _).last fun _ => .done _

theorem Literal.inStep_write (l : Literal) : InStep f g l.aliases (l.write f) (l.write g) := by
  cases l with
  | color | dimension | duration | number | fontFamily | fontWeight | cubicBezier => exact .done _
  | transition t => exact t.inStep_write
  | strokeStyle s => exact s.inStep_write
  | border b => exact b.inStep_write
  | typography t => exact t.inStep_write
  | shadow layers =>
    cases layers with
    | one s =>
      simp only [Literal.aliases, OneOrList.toList, List.flatMap_cons, List.flatMap_nil,
        List.append_nil]
      exact s.inStep_write
    | many ss => exact (InStep.mapM Shadow.inStep_write).last fun _ => .done _
  | gradient ss => exact (InStep.mapM GradientStop.inStep_write).last fun _ => .done _

/-- Two writers of one value ask for the texts of its aliases, in step. -/
theorem TokenValue.inStep_write (v : TokenValue) : InStep f g v.aliases (v.write f) (v.write g) := by
  cases v with
  | aliasTo ref => exact inStep_text ref
  | literal lit => exact lit.inStep_write

end

/-! ## The texts at hand -/

/-- The next text of a list of them; none is asked for that is not there. -/
def takeText (_ : Alias) : StateM (List String) String := fun texts => (texts.headD "", texts.tail)

/-- The value as JSON, with the texts of its aliases given in their order. -/
def TokenValue.withTexts (v : TokenValue) (texts : List String) : Json :=
  (v.write takeText texts).1

section

variable {m : Type → Type} [Monad m] [LawfulMonad m] {f : Alias → m String}

theorem InStep.eq_mapM {α : Type} {refs : List Alias} {x : m α} {y : StateM (List String) α}
    (h : InStep f takeText refs x y) :
    x = refs.mapM f >>= fun texts => pure (y texts).1 := by
  induction h with
  | done a =>
    rw [List.mapM_nil, pure_bind]
    rfl
  | ask _ ih =>
    rw [List.mapM_cons, bind_assoc]
    refine bind_congr fun text => ?_
    rw [bind_assoc, ih text]
    refine bind_congr fun texts => ?_
    rw [pure_bind]
    rfl

/-- A writer asks for the texts of the aliases, one after another, and for nothing else. -/
theorem TokenValue.write_eq (v : TokenValue) :
    v.write f = v.aliases.mapM f >>= fun texts => pure (v.withTexts texts) :=
  v.inStep_write.eq_mapM

end

/-! ## Why a value is not written -/

open Outcome (error? error?_bind_pure error?_mapM)

/-- A value is not written for the reason why the first of its aliases is not, if any is not. -/
theorem TokenValue.error?_write {ε : Type} {writeAlias : Alias → Except ε String} (v : TokenValue) :
    error? (v.write writeAlias) = v.aliases.findSome? fun ref => error? (writeAlias ref) := by
  rw [v.write_eq, error?_bind_pure, error?_mapM]

end DesignTokens
