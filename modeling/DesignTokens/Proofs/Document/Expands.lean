/-
Expansion as rules. `Expands` derives what a value becomes from what the values
it refers to become; it knows no chain of targets, and what refers to itself
simply has no derivation. `expand_exact` says that expansion finds exactly what
can be derived, and that a circle is reported only where there is one.

A target is a text, and one place has many spellings, so targets on the chain
may differ while the places they name are the same. This does no harm: the
targets below a derived value are well-founded under `LeadsTo`, so none of
those that are being followed can come again, however it is spelled.
-/
import Mathlib.Data.List.Chain
import DesignTokens.Proofs.Document.Expansion
import DesignTokens.Proofs.Walk

namespace DesignTokens.Expansion

/-! ## The rules -/

mutual

/-- The derivations of what a value becomes when the references to its document are replaced. -/
inductive Expands (doc : Json) : Json → Json → Prop
  | reference {v found w : Json} {target : String} (refers : Pointer.reference? v = some target)
      (lies : Pointer.atFragment doc target = .ok found) (expands : Expands doc found w) :
      Expands doc v w
  | object {ms ns : Members} (plain : Pointer.reference? (.object ms) = none)
      (members : ExpandsMembers doc ms ns) : Expands doc (.object ms) (.object ns)
  | array {items items' : List Json} (each : ExpandsItems doc items items') :
      Expands doc (.array items) (.array items')
  | null : Expands doc .null .null
  | bool (b : Bool) : Expands doc (.bool b) (.bool b)
  | number (n : Number) : Expands doc (.number n) (.number n)
  | string (s : String) : Expands doc (.string s) (.string s)

/-- `Expands` of each item, in order. -/
inductive ExpandsItems (doc : Json) : List Json → List Json → Prop
  | nil : ExpandsItems doc [] []
  | cons {v w : Json} {vs ws : List Json} (head : Expands doc v w)
      (tail : ExpandsItems doc vs ws) : ExpandsItems doc (v :: vs) (w :: ws)

/-- `Expands` of each member's value; keys and their order stay. -/
inductive ExpandsMembers (doc : Json) : Members → Members → Prop
  | nil : ExpandsMembers doc [] []
  | cons {v w : Json} {ms ns : Members} (k : String) (head : Expands doc v w)
      (tail : ExpandsMembers doc ms ns) : ExpandsMembers doc ((k, v) :: ms) ((k, w) :: ns)

end

/-- What a target stands for, by the rules. -/
def StandsFor (doc : Json) (target : String) (w : Json) : Prop :=
  ∃ found, Pointer.atFragment doc target = .ok found ∧ Expands doc found w

/-- The value that a target names holds a reference to another target. -/
def LeadsTo (doc : Json) (a b : String) : Prop :=
  ∃ found, Pointer.atFragment doc a = .ok found ∧ b ∈ targets found

/-! ## Expanding with an action -/

section

variable {ε : Type} {doc : Json} {follow : String → Except ε Json}

mutual

/-- What an action that keeps to the rules makes of a value is derived. -/
theorem expands_of_expandWith (hf : ∀ t w, follow t = .ok w → StandsFor doc t w) :
    (v : Json) → ∀ w, expandWith follow v = .ok w → Expands doc v w
  | .object ms, w, h => by
    rw [expandWith] at h
    split at h
    · next hr =>
      obtain ⟨found, hfound, hw⟩ := hf _ w h
      exact .reference hr hfound hw
    · next hr =>
      obtain ⟨ns, hns, h⟩ := Outcome.bind_eq_ok_iff.1 h
      cases h
      exact .object hr (expandsMembers_of_expandMembers hf ms ns hns)
  | .array items, w, h => by
    rw [expandWith] at h
    obtain ⟨ws, hws, h⟩ := Outcome.bind_eq_ok_iff.1 h
    cases h
    exact .array (expandsItems_of_expandItems hf items ws hws)
  | .null, _, h => by
    cases h
    exact .null
  | .bool b, _, h => by
    cases h
    exact .bool b
  | .number n, _, h => by
    cases h
    exact .number n
  | .string s, _, h => by
    cases h
    exact .string s

theorem expandsItems_of_expandItems (hf : ∀ t w, follow t = .ok w → StandsFor doc t w) :
    (vs : List Json) → ∀ ws, expandItems follow vs = .ok ws → ExpandsItems doc vs ws
  | [], _, h => by
    cases h
    exact .nil
  | v :: vs, _, h => by
    rw [expandItems] at h
    obtain ⟨w, hw, h⟩ := Outcome.bind_eq_ok_iff.1 h
    obtain ⟨ws, hws, h⟩ := Outcome.bind_eq_ok_iff.1 h
    cases h
    exact .cons (expands_of_expandWith hf v w hw) (expandsItems_of_expandItems hf vs ws hws)

theorem expandsMembers_of_expandMembers (hf : ∀ t w, follow t = .ok w → StandsFor doc t w) :
    (ms : Members) → ∀ ns, expandMembers follow ms = .ok ns → ExpandsMembers doc ms ns
  | [], _, h => by
    cases h
    exact .nil
  | (k, v) :: ms, _, h => by
    rw [expandMembers] at h
    obtain ⟨w, hw, h⟩ := Outcome.bind_eq_ok_iff.1 h
    obtain ⟨ns, hns, h⟩ := Outcome.bind_eq_ok_iff.1 h
    cases h
    exact .cons k (expands_of_expandWith hf v w hw) (expandsMembers_of_expandMembers hf ms ns hns)

end

mutual

/-- An action that finds what the targets of a value stand for makes of the value what is derived. -/
theorem expandWith_of_expands : (v : Json) →
    (∀ t ∈ targets v, ∀ w, StandsFor doc t w → follow t = .ok w) →
    ∀ w, Expands doc v w → expandWith follow v = .ok w
  | .object ms, hf, w, h => by
    rw [targets] at hf
    rw [expandWith]
    split at hf
    · next target hr =>
      cases h with
      | reference refers lies expands =>
        cases refers.symm.trans hr
        exact hf target (List.mem_singleton.2 rfl) w ⟨_, lies, expands⟩
      | object plain _ => cases plain.symm.trans hr
    · next hr =>
      cases h with
      | reference refers _ _ => cases refers.symm.trans hr
      | object _ members =>
        rw [expandMembers_of_expandsMembers ms hf _ members]
        rfl
  | .array items, hf, w, h => by
    cases h with
    | reference refers => cases refers
    | array each =>
      rw [expandWith, expandItems_of_expandsItems items hf _ each]
      rfl
  | .null, _, _, h | .bool _, _, _, h | .number _, _, _, h | .string _, _, _, h => by
    cases h with
    | reference refers => cases refers
    | _ => rfl

theorem expandItems_of_expandsItems : (vs : List Json) →
    (∀ t ∈ targetsOfItems vs, ∀ w, StandsFor doc t w → follow t = .ok w) →
    ∀ ws, ExpandsItems doc vs ws → expandItems follow vs = .ok ws
  | [], _, _, h => by
    cases h
    rfl
  | v :: vs, hf, _, h => by
    rw [targetsOfItems, List.forall_mem_append] at hf
    cases h with
    | cons head tail =>
      rw [expandItems, expandWith_of_expands v hf.1 _ head,
        expandItems_of_expandsItems vs hf.2 _ tail]
      rfl

theorem expandMembers_of_expandsMembers : (ms : Members) →
    (∀ t ∈ targetsOfMembers ms, ∀ w, StandsFor doc t w → follow t = .ok w) →
    ∀ ns, ExpandsMembers doc ms ns → expandMembers follow ms = .ok ns
  | [], _, _, h => by
    cases h
    rfl
  | (k, v) :: ms, hf, _, h => by
    rw [targetsOfMembers, List.forall_mem_append] at hf
    cases h with
    | cons _ head tail =>
      rw [expandMembers, expandWith_of_expands v hf.1 _ head,
        expandMembers_of_expandsMembers ms hf.2 _ tail]
      rfl

end

mutual

/-- An error comes from the target of one of the references. -/
theorem exists_target_of_expandWith {e : ε} : (v : Json) → expandWith follow v = .error e →
    ∃ t ∈ targets v, follow t = .error e
  | .object ms, h => by
    rw [targets]
    rw [expandWith] at h
    split at h
    · next target hr => exact ⟨target, List.mem_singleton.2 rfl, h⟩
    · rcases Outcome.bind_eq_error_iff.1 h with h | ⟨_, _, h⟩
      · exact exists_target_of_expandMembers ms h
      · cases h
  | .array items, h => by
    rw [expandWith] at h
    rcases Outcome.bind_eq_error_iff.1 h with h | ⟨_, _, h⟩
    · exact exists_target_of_expandItems items h
    · cases h
  | .null, h | .bool _, h | .number _, h | .string _, h => by cases h

theorem exists_target_of_expandItems {e : ε} : (vs : List Json) →
    expandItems follow vs = .error e → ∃ t ∈ targetsOfItems vs, follow t = .error e
  | [], h => by cases h
  | v :: vs, h => by
    rw [expandItems] at h
    rcases Outcome.bind_eq_error_iff.1 h with h | ⟨_, _, h⟩
    · obtain ⟨t, ht, h⟩ := exists_target_of_expandWith v h
      exact ⟨t, List.mem_append_left _ ht, h⟩
    rcases Outcome.bind_eq_error_iff.1 h with h | ⟨_, _, h⟩
    · obtain ⟨t, ht, h⟩ := exists_target_of_expandItems vs h
      exact ⟨t, List.mem_append_right _ ht, h⟩
    · cases h

theorem exists_target_of_expandMembers {e : ε} : (ms : Members) →
    expandMembers follow ms = .error e → ∃ t ∈ targetsOfMembers ms, follow t = .error e
  | [], h => by cases h
  | (k, v) :: ms, h => by
    rw [expandMembers] at h
    rcases Outcome.bind_eq_error_iff.1 h with h | ⟨_, _, h⟩
    · obtain ⟨t, ht, h⟩ := exists_target_of_expandWith v h
      exact ⟨t, List.mem_append_left _ ht, h⟩
    rcases Outcome.bind_eq_error_iff.1 h with h | ⟨_, _, h⟩
    · obtain ⟨t, ht, h⟩ := exists_target_of_expandMembers ms h
      exact ⟨t, List.mem_append_right _ ht, h⟩
    · cases h

end

end

/-! ## The targets of a document -/

theorem mem_targetsOfItems {items : List Json} {t : String} :
    t ∈ targetsOfItems items ↔ ∃ v ∈ items, t ∈ targets v := by
  induction items with
  | nil => simp [targetsOfItems]
  | cons v items ih => simp [targetsOfItems, ih]

theorem mem_targetsOfMembers {ms : Members} {t : String} :
    t ∈ targetsOfMembers ms ↔ ∃ m ∈ ms, t ∈ targets m.2 := by
  induction ms with
  | nil => simp [targetsOfMembers]
  | cons m ms ih => simp [targetsOfMembers, ih]

theorem targets_of_reference? {v : Json} {target : String}
    (h : Pointer.reference? v = some target) : targets v = [target] := by
  cases v with
  | object ms =>
    rw [targets]
    split
    · next hr => rw [Option.some.inj (hr.symm.trans h)]
    · next hr => cases hr.symm.trans h
  | _ => cases h

theorem targets_object {ms : Members} (h : Pointer.reference? (.object ms) = none) :
    targets (.object ms) = targetsOfMembers ms := by
  rw [targets]
  split
  · next hr => cases hr.symm.trans h
  · rfl

/-- A member of a local reference is its target text, which is no reference. -/
theorem targets_subset_of_mem {ms : Members} {k : String} {v : Json} (hm : (k, v) ∈ ms) :
    targets v ⊆ targets (.object ms) := by
  intro t ht
  rw [targets]
  split
  · next target hr =>
    unfold Pointer.reference? at hr
    split at hr
    · next he =>
      cases he
      cases List.mem_singleton.1 hm
      cases ht
    · cases hr
  · exact mem_targetsOfMembers.2 ⟨_, hm, ht⟩

theorem targets_subset_of_findFrom {walked path : Pointer.Path} {v w : Json}
    (h : Pointer.findFrom walked v path = .ok w) : targets w ⊆ targets v := by
  induction path generalizing walked v with
  | nil =>
    cases h
    exact List.Subset.refl _
  | cons step path ih =>
    cases v with
    | array items =>
      simp only [Pointer.findFrom] at h
      split at h
      · cases h
      · split at h
        · cases h
        · next hi =>
          refine fun t ht => mem_targetsOfItems.2 ⟨_, List.mem_of_getElem? hi, ?_⟩
          exact ih h ht
    | object ms =>
      simp only [Pointer.findFrom] at h
      split at h
      · cases h
      · next hm => exact fun t ht => targets_subset_of_mem (Dict.mem_of_get? hm) (ih h ht)
    | _ => cases h

theorem targets_subset_of_atFragment {doc v : Json} {reference : String}
    (h : Pointer.atFragment doc reference = .ok v) : targets v ⊆ targets doc := by
  obtain ⟨path, -, hfind⟩ := Pointer.exists_path_of_atFragment h
  exact targets_subset_of_findFrom hfind

theorem LeadsTo.mem_targets {doc : Json} {a b : String} (h : LeadsTo doc a b) : b ∈ targets doc :=
  let ⟨_, hfound, hb⟩ := h
  targets_subset_of_atFragment hfound hb

/-! ## The chain -/

/-- What may still be followed are the targets of the document and the value that are not
on the chain. -/
def Untried (all untried chain : List String) : Prop :=
  ∀ t, t ∈ untried ↔ t ∈ all ∧ t ∉ chain

theorem Untried.without {all untried chain : List String} (h : Untried all untried chain)
    (target : String) : Untried all (without untried target) (chain ++ [target]) := by
  intro t
  simp only [Expansion.without, List.mem_filter, decide_eq_true_eq, h t, List.mem_append,
    List.mem_singleton, not_or, and_assoc]

theorem untried_nil (all : List String) : Untried all all [] := by simp [Untried]

/-- Whether a target is followed is decided by the chain alone. -/
theorem follow_eq {doc : Json} {all untried chain : List String}
    (hu : Untried all untried chain) {target : String} (ht : target ∈ all) :
    follow doc untried chain target =
      if target ∈ chain then .error (.circular (chain ++ [target]))
      else match Pointer.atFragment doc target with
        | .error e => .error (.unresolved target e)
        | .ok found =>
          expandWith (follow doc (without untried target) (chain ++ [target])) found := by
  rw [follow]
  by_cases hc : target ∈ chain
  · rw [if_pos hc, dif_neg fun h => ((hu target).1 h).2 hc]
  · rw [if_neg hc]
    exact dif_pos ((hu target).2 ⟨ht, hc⟩)

/-! ## What is found is derived -/

/-- The induction is on the targets that may still be followed. -/
theorem standsFor_of_follow {doc : Json} {untried chain : List String} {target : String} {w : Json}
    (h : follow doc untried chain target = .ok w) : StandsFor doc target w := by
  rw [follow] at h
  split at h
  · next hu =>
    have hlt := length_without_lt hu
    split at h
    · cases h
    · next found hfound =>
      exact ⟨found, hfound, expands_of_expandWith (fun _ _ => standsFor_of_follow) found w h⟩
  · cases h
termination_by untried.length

/-! ## What is derived is found -/

mutual

/-- What is derived has references below which there are finitely many. -/
theorem Expands.acc {doc : Json} : {v w : Json} → Expands doc v w → ∀ t ∈ targets v,
    Acc (fun b a => LeadsTo doc a b) t
  | _, _, .reference refers lies expands, t, ht => by
    rw [targets_of_reference? refers, List.mem_singleton] at ht
    subst ht
    refine ⟨_, fun b ⟨found, hfound, hb⟩ => ?_⟩
    cases lies.symm.trans hfound
    exact expands.acc b hb
  | _, _, .object plain members, t, ht => members.acc t (targets_object plain ▸ ht)
  | _, _, .array each, t, ht => each.acc t ht
  | _, _, .null, t, ht | _, _, .bool _, t, ht | _, _, .number _, t, ht
  | _, _, .string _, t, ht => by cases ht
termination_by structural _ _ h => h

theorem ExpandsItems.acc {doc : Json} : {vs ws : List Json} → ExpandsItems doc vs ws →
    ∀ t ∈ targetsOfItems vs, Acc (fun b a => LeadsTo doc a b) t
  | _, _, .nil, t, ht => by cases ht
  | _, _, .cons head tail, t, ht => (List.mem_append.1 ht).elim (head.acc t) (tail.acc t)
termination_by structural _ _ h => h

theorem ExpandsMembers.acc {doc : Json} : {ms ns : Members} → ExpandsMembers doc ms ns →
    ∀ t ∈ targetsOfMembers ms, Acc (fun b a => LeadsTo doc a b) t
  | _, _, .nil, t, ht => by cases ht
  | _, _, .cons _ head tail, t, ht => (List.mem_append.1 ht).elim (head.acc t) (tail.acc t)
termination_by structural _ _ h => h

end

/-- The induction is on the targets below; none of them leads back to one that is on the chain. -/
theorem follow_of_standsFor {doc : Json} {all : List String} (hall : targets doc ⊆ all)
    {target : String} (hacc : Acc (fun b a => LeadsTo doc a b) target) :
    ∀ untried chain, Untried all untried chain → target ∈ all →
      (∀ c ∈ chain, Relation.TransGen (LeadsTo doc) c target) →
      ∀ w, StandsFor doc target w → follow doc untried chain target = .ok w := by
  induction hacc with
  | intro target hbelow ih =>
    intro untried chain hu ht hchain w ⟨found, hfound, hw⟩
    have hc : target ∉ chain := fun hc =>
      Walk.not_transGen_self_of_acc (.intro target hbelow) (hchain target hc)
    rw [follow_eq hu ht, if_neg hc, hfound]
    refine expandWith_of_expands found (fun t' ht' w' hw' => ?_) w hw
    have hlead : LeadsTo doc target t' := ⟨found, hfound, ht'⟩
    refine ih t' hlead _ _ (hu.without target) (hall hlead.mem_targets) (fun c hc => ?_) w' hw'
    exact Walk.transGen_of_mem_append hchain hlead hc

theorem expand_eq_ok_iff {doc v w : Json} : expand doc v = .ok w ↔ Expands doc v w := by
  refine ⟨expands_of_expandWith (fun _ _ => standsFor_of_follow) v w, fun h => ?_⟩
  refine expandWith_of_expands v (fun t ht w hw => ?_) w h
  exact follow_of_standsFor (List.subset_append_right ..) (h.acc t ht) _ [] (untried_nil _)
    (List.mem_append_left _ ht) nofun w hw

/-! ## Reports of circles -/

/--
Targets that lead each to the next, from one in a value to one that was there
before.
-/
structure IsCircle (doc v : Json) (chain : List String) : Prop where
  starts : ∃ t ∈ chain.head?, t ∈ targets v
  linked : List.IsChain (LeadsTo doc) chain
  closed : ∃ before t, chain = before ++ [t] ∧ t ∈ before

/-- The induction is on the targets that may still be followed. -/
theorem isCircle_of_follow {doc v : Json} {all untried chain circle : List String} {target : String}
    (hall : targets doc ⊆ all) (hu : Untried all untried chain) (ht : target ∈ all)
    (hstart : ∃ t ∈ (chain ++ [target]).head?, t ∈ targets v)
    (hlink : List.IsChain (LeadsTo doc) (chain ++ [target]))
    (h : follow doc untried chain target = .error (.circular circle)) : IsCircle doc v circle := by
  rw [follow_eq hu ht] at h
  split at h
  · next hc =>
    cases h
    exact ⟨hstart, hlink, chain, target, rfl, hc⟩
  next hc =>
  split at h
  · cases h
  next found hfound =>
  obtain ⟨t', ht', h⟩ := exists_target_of_expandWith found h
  have hlead : LeadsTo doc target t' := ⟨found, hfound, ht'⟩
  have hlt := length_without_lt ((hu target).2 ⟨ht, hc⟩)
  refine isCircle_of_follow hall (hu.without target) (hall hlead.mem_targets) ?_ ?_ h
  · rwa [List.head?_append_of_ne_nil _ (List.append_ne_nil_of_right_ne_nil _ (List.cons_ne_nil _ _))]
  · refine hlink.append (List.isChain_singleton t') ?_
    simpa using hlead
termination_by untried.length

theorem isCircle_of_expand {doc v : Json} {circle : List String}
    (h : expand doc v = .error (.circular circle)) : IsCircle doc v circle := by
  obtain ⟨t, ht, h⟩ := exists_target_of_expandWith v h
  exact isCircle_of_follow (List.subset_append_right ..) (untried_nil _)
    (List.mem_append_left _ ht) ⟨t, rfl, ht⟩ (List.isChain_singleton t) h

/--
**Expansion finds what can be derived.** In every document, a value expands to
another just if the rules derive it, and a value without references to itself;
so it fails just if nothing can be derived. Where it reports a circle there is
one: the reported targets start in the value and lead each to the next, and the
last of them was there before.
-/
theorem expand_exact (doc v : Json) :
    (∀ w, expand doc v = .ok w ↔ Expands doc v w) ∧
    ((∃ e, expand doc v = .error e) ↔ ¬ ∃ w, Expands doc v w) ∧
    (targets v = [] → expand doc v = .ok v) ∧
    ∀ circle, expand doc v = .error (.circular circle) →
      IsCircle doc v circle ∧ ∀ w, ¬ Expands doc v w := by
  refine ⟨fun w => expand_eq_ok_iff, ?_, expand_eq_self, fun circle h => ?_⟩
  · simp only [← expand_eq_ok_iff]
    cases expand doc v <;> simp
  · refine ⟨isCircle_of_expand h, fun w hw => ?_⟩
    cases h.symm.trans (expand_eq_ok_iff.2 hw)

/-- A member that refers to itself by another spelling of its place, beside a number. -/
def twoSpellings : Json :=
  .object [("size", .object [(Pointer.refKey, .string "#/%73ize")]), ("gap", .number (.integer 2))]

/-- The circle is found once a spelling comes again; a number is found under each of its spellings. -/
theorem expand_exact_spellings :
    let first : Json := .object [(Pointer.refKey, .string "#/size")]
    let gaps : Json := .array [.object [(Pointer.refKey, .string "#/gap")],
      .object [(Pointer.refKey, .string "#/%67ap")]]
    expand twoSpellings first = .error (.circular ["#/size", "#/%73ize", "#/%73ize"]) ∧
      (∀ w, ¬ Expands twoSpellings first w) ∧
      Expands twoSpellings gaps (.array [.number (.integer 2), .number (.integer 2)]) := by
  intro first gaps
  have hcircle : expand twoSpellings first =
      .error (.circular ["#/size", "#/%73ize", "#/%73ize"]) := by decide +kernel
  have hgaps : expand twoSpellings gaps =
      .ok (.array [.number (.integer 2), .number (.integer 2)]) := by decide +kernel
  exact ⟨hcircle, ((expand_exact twoSpellings first).2.2.2 _ hcircle).2,
    ((expand_exact twoSpellings gaps).1 _).1 hgaps⟩

end DesignTokens.Expansion
