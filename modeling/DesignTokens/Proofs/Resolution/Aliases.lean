/-
The aliases of a value, come by in three ways: `aliases` lists them, a writer
asks for their texts, and resolution follows them. None of the three misses one.

An alias writer may keep a state and may fail. `recorded` keeps a record of its
calls besides, which changes nothing else. The record of a value that is written
is the list of its aliases; that of a value that is not is a front part of the
list, up to the alias on which the writer fails.

What resolves has a target for each of its aliases, so a token with an alias that
leads nowhere does not resolve, whatever else it holds.
-/
import DesignTokens.Proofs.Resolution.Derivation
import DesignTokens.Proofs.Value.Asked
import DesignTokens.Store.Batch

namespace DesignTokens

section

variable {ε σ α β : Type}

/-! ## Actions with a state that may fail -/

theorem run_bind_eq_ok_iff {x : EStateM ε σ α} {k : α → EStateM ε σ β} {state last : σ} {b : β} :
    (x >>= k) state = .ok b last ↔ ∃ a next, x state = .ok a next ∧ k a next = .ok b last := by
  show EStateM.bind x k state = _ ↔ _
  unfold EStateM.bind
  cases x state <;> simp

theorem run_bind_eq_error_iff {x : EStateM ε σ α} {k : α → EStateM ε σ β} {state last : σ} {e : ε} :
    (x >>= k) state = .error e last ↔
      x state = .error e last ∨ ∃ a next, x state = .ok a next ∧ k a next = .error e last := by
  show EStateM.bind x k state = _ ↔ _
  unfold EStateM.bind
  cases x state <;> simp

theorem run_pure_eq_ok_iff {a b : α} {state last : σ} :
    (pure a : EStateM ε σ α) state = .ok b last ↔ a = b ∧ state = last := by
  simp [pure, EStateM.pure]

theorem run_pure_ne_error {a : α} {state last : σ} {e : ε} :
    (pure a : EStateM ε σ α) state ≠ .error e last := nofun

/-- An action with a record of the aliases that it is called on. -/
def recorded (f : Alias → EStateM ε σ String) (ref : Alias) :
    EStateM ε (σ × List Alias) String :=
  fun (state, calls) =>
    match f ref state with
    | .ok text next => .ok text (next, calls ++ [ref])
    | .error e next => .error e (next, calls ++ [ref])

/-- What comes out, without the record. -/
def unrecorded : EStateM.Result ε (σ × List Alias) α → EStateM.Result ε σ α
  | .ok a (state, _) => .ok a state
  | .error e (state, _) => .error e state

variable (f : Alias → EStateM ε σ String)

/-- The action gives a text for each of the aliases, on which it is called one after another. -/
inductive Answers : List Alias → σ → List String → σ → Prop
  | nil (state : σ) : Answers [] state [] state
  | cons {ref : Alias} {refs : List Alias} {text : String} {texts : List String}
      {state next last : σ} (head : f ref state = .ok text next)
      (tail : Answers refs next texts last) : Answers (ref :: refs) state (text :: texts) last

/-- Called on the aliases one after another, the action fails on the last one, and on no other. -/
inductive FailsLast : List Alias → σ → ε → σ → Prop
  | here {ref : Alias} {state last : σ} {e : ε} (head : f ref state = .error e last) :
      FailsLast [ref] state e last
  | later {ref : Alias} {refs : List Alias} {text : String} {state next last : σ} {e : ε}
      (head : f ref state = .ok text next) (tail : FailsLast refs next e last) :
      FailsLast (ref :: refs) state e last

variable {f}

theorem recorded_eq_ok_iff {ref : Alias} {state last : σ} {calls calls' : List Alias}
    {text : String} : recorded f ref (state, calls) = .ok text (last, calls') ↔
      f ref state = .ok text last ∧ calls' = calls ++ [ref] := by
  simp only [recorded]
  cases f ref state <;> simp [and_assoc, eq_comm (a := calls')]

theorem recorded_eq_error_iff {ref : Alias} {state last : σ} {calls calls' : List Alias}
    {e : ε} : recorded f ref (state, calls) = .error e (last, calls') ↔
      f ref state = .error e last ∧ calls' = calls ++ [ref] := by
  simp only [recorded]
  cases f ref state <;> simp [and_assoc, eq_comm (a := calls')]

theorem unrecorded_recorded (ref : Alias) (state : σ) (calls : List Alias) :
    unrecorded (recorded f ref (state, calls)) = f ref state := by
  simp only [recorded]
  cases f ref state <;> rfl

theorem unrecorded_bind {x : EStateM ε (σ × List Alias) α} {y : EStateM ε σ α}
    {k : α → EStateM ε (σ × List Alias) β} {l : α → EStateM ε σ β} {state : σ} {calls : List Alias}
    (hx : unrecorded (x (state, calls)) = y state)
    (hk : ∀ a next calls, unrecorded (k a (next, calls)) = l a next) :
    unrecorded ((x >>= k) (state, calls)) = (y >>= l) state := by
  show unrecorded (EStateM.bind x k (state, calls)) = EStateM.bind y l state
  unfold EStateM.bind
  rw [← hx]
  cases x (state, calls) with
  | ok a next => exact hk a next.1 next.2
  | error e next => rfl

/-- A record does not change what comes out. -/
theorem unrecorded_mapM (refs : List Alias) (state : σ) (calls : List Alias) :
    unrecorded (refs.mapM (recorded f) (state, calls)) = refs.mapM f state := by
  induction refs generalizing state calls with
  | nil =>
    rw [List.mapM_nil, List.mapM_nil]
    rfl
  | cons ref refs ih =>
    rw [List.mapM_cons, List.mapM_cons]
    refine unrecorded_bind (unrecorded_recorded ref state calls) fun text next calls => ?_
    exact unrecorded_bind (ih next calls) fun texts last calls => rfl

theorem mapM_recorded_eq_ok_iff {refs calls calls' : List Alias} {state last : σ}
    {texts : List String} : refs.mapM (recorded f) (state, calls) = .ok texts (last, calls') ↔
      Answers f refs state texts last ∧ calls' = calls ++ refs := by
  induction refs generalizing state calls texts with
  | nil =>
    rw [List.mapM_nil, run_pure_eq_ok_iff, Prod.mk.injEq, List.append_nil]
    constructor
    · rintro ⟨rfl, rfl, rfl⟩
      exact ⟨.nil state, rfl⟩
    · rintro ⟨⟨⟩, rfl⟩
      exact ⟨rfl, rfl, rfl⟩
  | cons ref refs ih =>
    simp only [List.mapM_cons, run_bind_eq_ok_iff, run_pure_eq_ok_iff]
    constructor
    · rintro ⟨text, ⟨next, _⟩, hcall, texts, ⟨last, _⟩, hcalls, rfl, ⟨⟩⟩
      obtain ⟨hhead, rfl⟩ := recorded_eq_ok_iff.1 hcall
      obtain ⟨htail, rfl⟩ := ih.1 hcalls
      exact ⟨.cons hhead htail, by simp⟩
    · rintro ⟨hanswers, rfl⟩
      cases hanswers with
      | @cons _ _ text texts _ next _ hhead htail =>
        exact ⟨text, (next, calls ++ [ref]), recorded_eq_ok_iff.2 ⟨hhead, rfl⟩, texts,
          (last, calls ++ ref :: refs), ih.2 ⟨htail, by simp⟩, rfl, rfl⟩

theorem mapM_recorded_eq_error_iff {refs calls calls' : List Alias} {state last : σ} {e : ε} :
    refs.mapM (recorded f) (state, calls) = .error e (last, calls') ↔
      ∃ asked, asked <+: refs ∧ FailsLast f asked state e last ∧ calls' = calls ++ asked := by
  induction refs generalizing state calls with
  | nil =>
    rw [List.mapM_nil]
    refine iff_of_false run_pure_ne_error ?_
    rintro ⟨asked, hfront, hfails, -⟩
    rw [List.prefix_nil.1 hfront] at hfails
    cases hfails
  | cons ref refs ih =>
    simp only [List.mapM_cons, run_bind_eq_error_iff, run_pure_ne_error, and_false, exists_false,
      or_false]
    constructor
    · rintro (hcall | ⟨text, ⟨next, _⟩, hcall, hcalls⟩)
      · obtain ⟨hhead, rfl⟩ := recorded_eq_error_iff.1 hcall
        exact ⟨[ref], List.prefix_append [ref] refs, .here hhead, rfl⟩
      · obtain ⟨hhead, rfl⟩ := recorded_eq_ok_iff.1 hcall
        obtain ⟨asked, hfront, hfails, rfl⟩ := ih.1 hcalls
        exact ⟨ref :: asked, List.cons_prefix_cons.2 ⟨rfl, hfront⟩, .later hhead hfails, by simp⟩
    · rintro ⟨asked, hfront, hfails, rfl⟩
      cases hfails with
      | here hhead =>
        obtain ⟨rfl, -⟩ := List.cons_prefix_cons.1 hfront
        exact .inl (recorded_eq_error_iff.2 ⟨hhead, rfl⟩)
      | @later _ asked text _ next _ _ hhead htail =>
        obtain ⟨rfl, hrest⟩ := List.cons_prefix_cons.1 hfront
        refine .inr ⟨text, (next, calls ++ [_]), recorded_eq_ok_iff.2 ⟨hhead, rfl⟩, ?_⟩
        exact ih.2 ⟨asked, hrest, htail, by simp⟩

/-! ## A value that is written -/

theorem TokenValue.write_recorded_eq_ok_iff (v : TokenValue) {state last : σ} {calls : List Alias}
    {json : Json} : v.write (recorded f) (state, []) = .ok json (last, calls) ↔
      calls = v.aliases ∧
        ∃ texts, Answers f v.aliases state texts last ∧ json = v.withTexts texts := by
  simp only [v.write_eq, run_bind_eq_ok_iff, run_pure_eq_ok_iff]
  constructor
  · rintro ⟨texts, next, hall, rfl, rfl⟩
    obtain ⟨hanswers, rfl⟩ := mapM_recorded_eq_ok_iff.1 hall
    exact ⟨rfl, texts, hanswers, rfl⟩
  · rintro ⟨rfl, texts, hanswers, rfl⟩
    exact ⟨texts, _, mapM_recorded_eq_ok_iff.2 ⟨hanswers, rfl⟩, rfl, rfl⟩

theorem TokenValue.write_recorded_eq_error_iff (v : TokenValue) {state last : σ}
    {calls : List Alias} {e : ε} : v.write (recorded f) (state, []) = .error e (last, calls) ↔
      calls <+: v.aliases ∧ FailsLast f calls state e last := by
  simp only [v.write_eq, run_bind_eq_error_iff, run_pure_ne_error, and_false, exists_false,
    or_false]
  rw [mapM_recorded_eq_error_iff]
  constructor
  · rintro ⟨asked, hfront, hfails, rfl⟩
    exact ⟨hfront, hfails⟩
  · rintro ⟨hfront, hfails⟩
    exact ⟨calls, hfront, hfails, rfl⟩

theorem TokenValue.unrecorded_write (v : TokenValue) (f : Alias → EStateM ε σ String) (state : σ) :
    unrecorded (v.write (recorded f) (state, [])) = v.write f state := by
  rw [v.write_eq, v.write_eq]
  exact unrecorded_bind (unrecorded_mapM v.aliases state []) fun texts last calls => rfl

end

/-- What resolves has a target for each of its aliases. -/
theorem Store.error_of_target {s : Store} {id : NodeId} {n : Node} {t : Token} {ref : Alias}
    {e : ResolutionError} (hn : s.node? id = some n) (ht : n.content = .token t)
    (href : ref ∈ t.value.aliases) (he : s.target ref id = .error e) :
    ∃ e', s.resolve id = .error e' := by
  cases hr : s.resolve id with
  | error e' => exact ⟨e', rfl⟩
  | ok r =>
    obtain ⟨m, hm⟩ := (yields_of_resolveFrom hr).exists_target hn ht href
    cases he.symm.trans hm

/--
**The aliases of a value are gone through alike.** However an alias writer goes
on from call to call, a value is written just if the writer has a text for each
of the aliases listed, in that order, and then these were the calls. Otherwise
the value is not written for the reason that the writer gives on the first alias
that it fails on, and the calls were those up to it. And a token does not resolve
if any of the aliases listed for its value has no target.
-/
theorem aliases_traversed {ε σ : Type} (v : TokenValue) (f : Alias → EStateM ε σ String)
    (state : σ) :
    unrecorded (v.write (recorded f) (state, [])) = v.write f state ∧
    (∀ json last calls, v.write (recorded f) (state, []) = .ok json (last, calls) ↔
      calls = v.aliases ∧
        ∃ texts, Answers f v.aliases state texts last ∧ json = v.withTexts texts) ∧
    (∀ e last calls, v.write (recorded f) (state, []) = .error e (last, calls) ↔
      calls <+: v.aliases ∧ FailsLast f calls state e last) ∧
    ∀ (s : Store) (id : NodeId) (n : Node) (t : Token) (ref : Alias) (e : ResolutionError),
      s.node? id = some n → n.content = .token t → ref ∈ t.value.aliases →
      s.target ref id = .error e → ∃ e', s.resolve id = .error e' :=
  ⟨v.unrecorded_write f state, fun _ _ _ => v.write_recorded_eq_ok_iff,
    fun _ _ _ => v.write_recorded_eq_error_iff,
    fun _ _ _ _ _ _ hn ht href he => Store.error_of_target hn ht href he⟩

/-- An alias writer that counts its calls and has no text for one path. -/
def counting (ref : Alias) : EStateM String Nat String := fun count =>
  if ref = .path "gone" then .error ref.display (count + 1) else .ok ref.display (count + 1)

/-- A border with a dashed stroke of its own, the first dash of which leads nowhere. -/
def gappedBorder : TokenValue :=
  .literal (.border ⟨.aliasTo (.path "ink"), .value ⟨.integer 1, .px⟩,
    .value (.dashed [.aliasTo (.path "gone"), .aliasTo (.path "gap")] .round)⟩)

/-- The border as the only token of a store. -/
def borderStore : Store :=
  .ofNodes [⟨⟨"frame"⟩, none, "a0", .token ⟨"frame", .none, some .border, gappedBorder⟩⟩]

/-- The border's writer is called on the color and on the first dash, on which it fails. -/
theorem aliases_traversed_gappedBorder :
    gappedBorder.write (recorded counting) (0, []) =
      .error "\x7bgone\x7d" (2, [.path "ink", .path "gone"]) ∧
    [.path "ink", .path "gone"] <+: gappedBorder.aliases ∧
    FailsLast counting [.path "ink", .path "gone"] 0 "\x7bgone\x7d" 2 ∧
    (∃ n t, borderStore.node? ⟨"frame"⟩ = some n ∧ n.content = .token t ∧
      .path "gone" ∈ t.value.aliases ∧
      borderStore.target (.path "gone") ⟨"frame"⟩ = .error (.noTarget (.path "gone"))) ∧
    ∃ e, borderStore.resolve ⟨"frame"⟩ = .error e := by
  have hrun : gappedBorder.write (recorded counting) (0, []) =
      .error "\x7bgone\x7d" (2, [.path "ink", .path "gone"]) := rfl
  have hgone : Alias.path "gone" ∈ gappedBorder.aliases := by decide
  have htarget : borderStore.target (.path "gone") ⟨"frame"⟩ =
      .error (.noTarget (.path "gone")) := by decide +kernel
  obtain ⟨-, -, hfails, hresolve⟩ := aliases_traversed gappedBorder counting 0
  obtain ⟨hcalls, hlast⟩ := (hfails _ _ _).1 hrun
  exact ⟨hrun, hcalls, hlast, ⟨_, _, rfl, rfl, hgone, htarget⟩,
    hresolve borderStore ⟨"frame"⟩ _ _ (.path "gone") _ rfl rfl hgone htarget⟩

end DesignTokens
