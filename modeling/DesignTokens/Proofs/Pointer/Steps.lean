/-
Following a path, step by step. A step leads from an object to the member of its
name, and from an array to the element whose index it writes; from any other
value it leads nowhere (`Enters`). A path that cannot be followed stops at one
step, and the error is that step's (`find_first_failure`).

An index is written in one way only, as a decimal without leading zeros, and a
name is that of one member; so a step is told by the place that it leads to, and
a path by the places on its way.
-/
import DesignTokens.Pointer.Find
import DesignTokens.Proofs.Dict

namespace DesignTokens.Pointer

/-! ## Indices -/

/-- The step is a number of 64 bits as decimals write it. -/
def IsIndex (step : String) : Prop := ∃ n, n < indexBound ∧ step = toString n

theorem natOfDigits_eq (cs : List Char) : natOfDigits cs = Nat.ofDigitChars 10 cs 0 := by
  rw [Nat.ofDigitChars_eq_foldl]
  rfl

theorem digit_bounds {c : Char} (h : isDigit c) : 48 ≤ c.toNat ∧ c.toNat ≤ 57 :=
  Char.isDigit_iff_toNat.1 h

theorem toDigits_of_isDigit {c : Char} (h : isDigit c) : Nat.toDigits 10 (c.toNat - 48) = [c] := by
  have hc := digit_bounds h
  rw [Nat.toDigits_of_lt_base (by omega)]
  refine congrArg (fun d => [d]) (Char.toNat_inj.1 ?_)
  rw [Nat.toNat_digitChar_of_lt_ten (by omega)]
  omega

/-- Digits behind those of a number that is not zero make the digits of a number again. -/
theorem toDigits_ofDigitChars {n : Nat} (hn : 0 < n) {cs : List Char} (h : ∀ c ∈ cs, isDigit c) :
    Nat.toDigits 10 (Nat.ofDigitChars 10 cs n) = Nat.toDigits 10 n ++ cs := by
  induction cs generalizing n with
  | nil => simp
  | cons c cs ih =>
    obtain ⟨hc, hcs⟩ := List.forall_mem_cons.1 h
    have hb := digit_bounds hc
    have hlt : c.toNat - '0'.toNat < 10 := by
      show c.toNat - 48 < 10
      omega
    rw [Nat.ofDigitChars_cons, ih (by omega) hcs,
      ← Nat.toDigits_append_toDigits (by decide) hn hlt]
    show Nat.toDigits 10 n ++ Nat.toDigits 10 (c.toNat - 48) ++ cs = _
    rw [toDigits_of_isDigit hc, List.append_assoc, List.singleton_append]

theorem head?_toDigits_ne {n : Nat} (hn : 0 < n) : (Nat.toDigits 10 n).head? ≠ some '0' := by
  induction n using Nat.strongRecOn with
  | ind n ih =>
    rw [Nat.toDigits_eq_if (by decide)]
    split
    · simp only [List.head?_cons, ne_eq, Option.some.injEq, Nat.digitChar_eq_zero]
      omega
    · have hhigh : 0 < n / 10 := by omega
      have hne := ih (n / 10) (by omega) hhigh
      cases hds : Nat.toDigits 10 (n / 10) with
      | nil => exact absurd hds Nat.toDigits_ne_nil
      | cons d ds => simpa [hds] using hne

/-- Digits without a leading zero are those of the number that they write. -/
theorem toDigits_natOfDigits {c : Char} {cs : List Char} (h : ∀ d ∈ c :: cs, isDigit d)
    (hzero : cs = [] ∨ c ≠ '0') : Nat.toDigits 10 (natOfDigits (c :: cs)) = c :: cs := by
  obtain ⟨hc, hcs⟩ := List.forall_mem_cons.1 h
  have hfirst : natOfDigits (c :: cs) = Nat.ofDigitChars 10 cs (c.toNat - 48) := by
    rw [natOfDigits_eq, Nat.ofDigitChars_cons, Nat.mul_zero, Nat.zero_add]
    rfl
  rcases hzero with rfl | hzero
  · rw [hfirst, Nat.ofDigitChars_nil, toDigits_of_isDigit hc]
  · have hpos : 0 < c.toNat - 48 := by
      have hb := digit_bounds hc
      have hne : c.toNat ≠ 48 := fun he => hzero (Char.toNat_inj.1 he)
      omega
    rw [hfirst, toDigits_ofDigitChars hpos hcs, toDigits_of_isDigit hc, List.singleton_append]

/-- Each number below the bound is the index of one step: the text that decimals write. -/
theorem index?_eq_some_iff {step : String} {n : Nat} :
    index? step = some n ↔ n < indexBound ∧ step = toString n := by
  rw [← String.toList_inj, Nat.toString_eq_ofList_toDigits, String.toList_ofList, index?]
  constructor
  · intro h
    split at h
    · cases h
    · next c cs hcs =>
      split at h
      · next hd =>
        simp only [Bool.and_eq_true, Bool.or_eq_true, List.all_eq_true, List.isEmpty_iff,
          decide_eq_true_eq] at hd
        simp only [Option.ite_none_right_eq_some, Option.some.injEq] at h
        obtain ⟨hlt, rfl⟩ := h
        exact ⟨hlt, by rw [hcs, toDigits_natOfDigits hd.1 hd.2]⟩
      · cases h
  · rintro ⟨hlt, hstep⟩
    rw [hstep]
    cases hds : Nat.toDigits 10 n with
    | nil => exact absurd hds Nat.toDigits_ne_nil
    | cons c cs =>
      have hdigits : ∀ d ∈ c :: cs, isDigit d := by
        intro d hd
        exact Nat.isDigit_of_mem_toDigits (by decide) (by decide) (hds ▸ hd)
      have hzero : cs = [] ∨ c ≠ '0' := by
        rcases Nat.eq_zero_or_pos n with rfl | hn
        · rw [Nat.toDigits_zero] at hds
          exact .inl (List.cons.inj hds).2.symm
        · have hne := head?_toDigits_ne hn
          rw [hds, List.head?_cons] at hne
          exact .inr fun he => hne (congrArg some he)
      have hn : natOfDigits (c :: cs) = n := by
        rw [natOfDigits_eq, ← hds, Nat.ofDigitChars_ten_toDigits]
      have hd : ((c :: cs).all isDigit && (cs.isEmpty || c ≠ '0')) = true := by
        simpa [List.all_eq_true] using ⟨List.forall_mem_cons.1 hdigits, hzero⟩
      simp only [hd, hn, if_true]
      exact if_pos hlt

theorem index?_eq_none_iff {step : String} : index? step = none ↔ ¬ IsIndex step := by
  rw [Option.eq_none_iff_forall_ne_some]
  simp only [ne_eq, index?_eq_some_iff, IsIndex, not_exists]

/-! ## One step -/

/--
A step leads from a value to the one at a position in it. Of several members with
one name, which no document has, the first is meant.
-/
inductive Enters : Json → String → Nat → Json → Prop
  | element {items : List Json} {i : Nat} {v : Json} (hi : i < indexBound)
      (lies : items[i]? = some v) : Enters (.array items) (toString i) i v
  | member {members : Members} {key : String} {i : Nat} {v : Json}
      (lies : members[i]? = some (key, v)) (first : key ∉ Dict.keys (members.take i)) :
      Enters (.object members) key i v

/-- The error at a step that leads nowhere; `upTo` is the path that ends with it. -/
inductive Refused (step : String) (upTo : Path) : Json → PointerError → Prop
  | notAnIndex {items : List Json} (h : ¬ IsIndex step) :
      Refused step upTo (.array items) (.notAnIndex step)
  | notFound {v : Json} (h : ∀ items, v = .array items → IsIndex step) :
      Refused step upTo v (.notFound upTo)

theorem enters_array_iff {items : List Json} {step : String} {i : Nat} {w : Json} :
    Enters (.array items) step i w ↔ index? step = some i ∧ items[i]? = some w := by
  rw [index?_eq_some_iff]
  constructor
  · intro h
    cases h with
    | element hi lies => exact ⟨⟨hi, rfl⟩, lies⟩
  · rintro ⟨⟨hi, rfl⟩, lies⟩
    exact .element hi lies

theorem exists_enters_object_iff {members : Members} {step : String} {w : Json} :
    (∃ i, Enters (.object members) step i w) ↔ Dict.get? members step = some w := by
  rw [Dict.get?_eq_some_iff_first]
  constructor
  · rintro ⟨i, h⟩
    cases h with
    | member lies first => exact ⟨i, lies, first⟩
  · rintro ⟨i, lies, first⟩
    exact ⟨i, .member lies first⟩

namespace Enters

variable {v w u : Json} {step step' : String} {i j : Nat}

/-- A step leads to one place. -/
theorem unique (h : Enters v step i w) (h' : Enters v step j u) : i = j ∧ w = u := by
  cases v with
  | array items =>
    obtain ⟨hi, lies⟩ := enters_array_iff.1 h
    obtain ⟨hj, lies'⟩ := enters_array_iff.1 h'
    cases hi.symm.trans hj
    cases lies.symm.trans lies'
    exact ⟨rfl, rfl⟩
  | object members =>
    cases h with
    | member lies first => cases h' with
      | member lies' first' =>
        obtain rfl := Nat.le_antisymm (Dict.le_of_first lies' first) (Dict.le_of_first lies first')
        cases lies.symm.trans lies'
        exact ⟨rfl, rfl⟩
  | _ => cases h

/-- A place is led to by one step. -/
theorem step_unique (h : Enters v step i w) (h' : Enters v step' i u) : step = step' := by
  cases h with
  | element => cases h' with
    | element => rfl
  | member lies _ => cases h' with
    | member lies' _ =>
      cases lies.symm.trans lies'
      rfl

end Enters

/-- A step is taken, or it is refused. -/
theorem findFrom_cons_cases (v : Json) (step : String) :
    (∃ i w, Enters v step i w ∧
      ∀ walked path, findFrom walked v (step :: path) = findFrom (walked ++ [step]) w path) ∨
    (∀ i w, ¬ Enters v step i w) ∧ ∀ walked, ∃ e, Refused step (walked ++ [step]) v e ∧
      ∀ path, findFrom walked v (step :: path) = .error e := by
  cases v with
  | array items =>
    simp only [enters_array_iff, findFrom]
    cases hindex : index? step with
    | none =>
      exact .inr ⟨nofun, fun walked => ⟨_, .notAnIndex (index?_eq_none_iff.1 hindex), fun _ => rfl⟩⟩
    | some i =>
      have hstep : IsIndex step := ⟨i, index?_eq_some_iff.1 hindex⟩
      cases hitem : items[i]? with
      | some w => exact .inl ⟨i, w, ⟨rfl, hitem⟩, fun walked path => by simp only [hitem]⟩
      | none =>
        refine .inr ⟨?_, fun walked => ⟨_, .notFound fun _ _ => hstep, fun path => ?_⟩⟩
        · rintro j w ⟨⟨⟩, hw⟩
          cases hitem.symm.trans hw
        · simp only [hitem]
  | object members =>
    simp only [findFrom]
    cases hmember : Dict.get? members step with
    | some w =>
      obtain ⟨i, h⟩ := exists_enters_object_iff.2 hmember
      exact .inl ⟨i, w, h, fun _ _ => rfl⟩
    | none =>
      refine .inr ⟨fun i w h => ?_, fun walked => ⟨_, .notFound nofun, fun _ => rfl⟩⟩
      cases hmember.symm.trans (exists_enters_object_iff.1 ⟨i, h⟩)
  | _ => exact .inr ⟨nofun, fun walked => ⟨_, .notFound nofun, fun _ => rfl⟩⟩

/-! ## Paths -/

/-- A path leads from a value to the one at a place in it; a place is the positions on the way. -/
inductive LeadsTo : Json → Path → List Nat → Json → Prop
  | here {v : Json} : LeadsTo v [] [] v
  | step {v w u : Json} {step : String} {path : Path} {i : Nat} {place : List Nat}
      (enters : Enters v step i w) (rest : LeadsTo w path place u) :
      LeadsTo v (step :: path) (i :: place) u

theorem leadsTo_append {v w : Json} {p q : Path} {place : List Nat}
    (h : LeadsTo v (p ++ q) place w) :
    ∃ above u below, LeadsTo v p above u ∧ LeadsTo u q below w := by
  induction p generalizing v place with
  | nil => exact ⟨[], v, place, .here, h⟩
  | cons step p ih =>
    cases h with
    | step enters rest =>
      obtain ⟨above, u, below, hp, hq⟩ := ih rest
      exact ⟨_, u, below, .step enters hp, hq⟩

namespace LeadsTo

variable {v w u : Json} {p q : Path} {place place' : List Nat}

/-- A path leads to one place. -/
theorem unique (h : LeadsTo v p place w) (h' : LeadsTo v p place' u) : place = place' ∧ w = u := by
  induction h generalizing place' with
  | here =>
    cases h'
    exact ⟨rfl, rfl⟩
  | step enters _ ih =>
    cases h' with
    | step enters' rest' =>
      obtain ⟨rfl, rfl⟩ := enters.unique enters'
      obtain ⟨rfl, rfl⟩ := ih rest'
      exact ⟨rfl, rfl⟩

/-- A place is led to by one path. -/
theorem path_unique (h : LeadsTo v p place w) (h' : LeadsTo v q place u) : p = q := by
  induction h generalizing q with
  | here =>
    cases h'
    rfl
  | step enters _ ih =>
    cases h' with
    | step enters' rest' =>
      obtain rfl := enters.step_unique enters'
      obtain ⟨-, rfl⟩ := enters.unique enters'
      rw [ih rest']

/-- On the way to its end a path leads to where each of its steps is taken. -/
theorem exists_enters {step : String} {after : Path} (h : LeadsTo v (p ++ step :: after) place w)
    (h' : LeadsTo v p place' u) : ∃ i x, Enters u step i x := by
  obtain ⟨_, _, _, hp, hrest⟩ := leadsTo_append h
  obtain ⟨-, rfl⟩ := hp.unique h'
  cases hrest with
  | step enters _ => exact ⟨_, _, enters⟩

end LeadsTo

/--
A path is followed to its end, or up to the first step that cannot be taken,
whose error it gives.
-/
theorem findFrom_cases (v : Json) (path : Path) :
    (∃ place w, LeadsTo v path place w ∧ ∀ walked, findFrom walked v path = .ok w) ∨
    ∃ before step after place w, path = before ++ step :: after ∧ LeadsTo v before place w ∧
      (∀ i u, ¬ Enters w step i u) ∧
      ∀ walked, ∃ e, Refused step (walked ++ before ++ [step]) w e ∧
        findFrom walked v path = .error e := by
  induction path generalizing v with
  | nil => exact .inl ⟨[], v, .here, fun _ => rfl⟩
  | cons step path ih =>
    rcases findFrom_cons_cases v step with ⟨i, w, enters, hnext⟩ | ⟨hblocked, herror⟩
    · rcases ih w with ⟨place, u, leads, hfind⟩ |
        ⟨before, bad, after, place, u, rfl, leads, hblocked, herror⟩
      · exact .inl ⟨_, u, .step enters leads, fun walked => by rw [hnext, hfind]⟩
      · refine .inr ⟨step :: before, bad, after, _, u, rfl, .step enters leads, hblocked, ?_⟩
        intro walked
        obtain ⟨e, hrefused, hfind⟩ := herror (walked ++ [step])
        rw [List.append_assoc walked, List.singleton_append] at hrefused
        exact ⟨e, hrefused, by rw [hnext, hfind]⟩
    · refine .inr ⟨[], step, path, [], v, rfl, .here, hblocked, fun walked => ?_⟩
      obtain ⟨e, hrefused, hfind⟩ := herror walked
      rw [List.append_nil]
      exact ⟨e, hrefused, hfind path⟩

theorem find_eq_ok_iff {v w : Json} {path : Path} :
    find v path = .ok w ↔ ∃ place, LeadsTo v path place w := by
  rcases findFrom_cases v path with
    ⟨place, u, leads, hfind⟩ | ⟨before, step, after, place, u, rfl, leads, hblocked, herror⟩
  · rw [find, hfind, Except.ok.injEq]
    exact ⟨fun he => ⟨place, he ▸ leads⟩, fun ⟨_, hw⟩ => (leads.unique hw).2⟩
  · obtain ⟨e, -, hfind⟩ := herror []
    rw [find, hfind]
    refine ⟨nofun, fun ⟨_, hw⟩ => ?_⟩
    obtain ⟨i, x, enters⟩ := hw.exists_enters leads
    exact absurd enters (hblocked i x)

/-- The path is followed to a value from which its next step cannot be taken: `i` steps are. -/
structure StopsAt (doc : Json) (path : Path) (i : Nat) (v : Json) (step : String) : Prop where
  next : path[i]? = some step
  reached : find doc (path.take i) = .ok v
  blocked : ∀ j w, ¬ Enters v step j w

theorem StopsAt.le {doc v w : Json} {path : Path} {i j : Nat} {step next : String}
    (h : StopsAt doc path i v step) (h' : StopsAt doc path j w next) : j ≤ i := by
  refine Nat.le_of_not_lt fun hlt => ?_
  obtain ⟨place, hv⟩ := find_eq_ok_iff.1 h.reached
  obtain ⟨place', hw⟩ := find_eq_ok_iff.1 h'.reached
  obtain ⟨hi, rfl⟩ := List.getElem?_eq_some_iff.1 h.next
  obtain ⟨k, rfl⟩ : ∃ k, j = i + (k + 1) := ⟨j - i - 1, by omega⟩
  rw [List.take_add, List.drop_eq_getElem_cons hi, List.take_succ_cons] at hw
  obtain ⟨_, _, enters⟩ := hw.exists_enters hv
  exact h.blocked _ _ enters

/--
**A path is followed, or the first step that fails is reported.** Either a path
and each of its beginnings leads to a value, or there is just one step that
cannot be taken from where the steps before it lead. In that case the error names
the step, if it is no index and stands at an array, and else gives the path up to
it. Places and the paths that lead to them correspond, so no two paths lead to
one place.
-/
theorem find_first_failure (doc : Json) :
    (∀ path, (∀ q, q <+: path → ∃ v, find doc q = .ok v) ∨
      ∃ i v step e, StopsAt doc path i v step ∧
        (∀ j w next, StopsAt doc path j w next → j = i) ∧
        Refused step (path.take (i + 1)) v e ∧ find doc path = .error e) ∧
    (∀ path v, find doc path = .ok v ↔ ∃ place, LeadsTo doc path place v) ∧
    ∀ p q place place' v w, LeadsTo doc p place v → LeadsTo doc q place' w →
      (place = place' ↔ p = q) := by
  refine ⟨fun path => ?_, fun _ _ => find_eq_ok_iff, fun p q place place' v w hp hq => ?_⟩
  · rcases findFrom_cases doc path with
      ⟨place, v, leads, -⟩ | ⟨before, step, after, place, v, rfl, leads, hblocked, herror⟩
    · left
      rintro q ⟨rest, rfl⟩
      obtain ⟨above, w, _, hq, -⟩ := leadsTo_append leads
      exact ⟨w, find_eq_ok_iff.2 ⟨above, hq⟩⟩
    · right
      obtain ⟨e, hrefused, hfind⟩ := herror []
      have hstops : StopsAt doc (before ++ step :: after) before.length v step :=
        ⟨by simp, by simpa using find_eq_ok_iff.2 ⟨place, leads⟩, hblocked⟩
      refine ⟨before.length, v, step, e, hstops, fun j w next h => ?_, ?_, hfind⟩
      · exact Nat.le_antisymm (hstops.le h) (h.le hstops)
      · rw [List.append_cons before step after, List.take_left' (by simp)]
        exact hrefused
  · constructor
    · rintro rfl
      exact hp.path_unique hq
    · rintro rfl
      exact (hp.unique hq).1

/-- An element is reached by one spelling of its index, and each of the others is refused. -/
theorem find_first_failure_listed :
    let doc : Json := .object [("a", .array [.null, .object [("b", .bool true)]])]
    LeadsTo doc ["a", "1", "b"] [0, 1, 0] (.bool true) ∧
    (∀ path v, LeadsTo doc path [0, 1, 0] v → path = ["a", "1", "b"]) ∧
    find doc ["a", "01", "b"] = .error (.notAnIndex "01") ∧
    find doc ["a", "18446744073709551617", "b"] = .error (.notAnIndex "18446744073709551617") ∧
    find doc ["a", "2", "b"] = .error (.notFound ["a", "2"]) := by
  intro doc
  have hlast : LeadsTo (.object [("b", .bool true)]) ["b"] [0] (.bool true) :=
    .step (.member rfl List.not_mem_nil) .here
  have helement : LeadsTo (.array [.null, .object [("b", .bool true)]]) ["1", "b"] [1, 0]
      (.bool true) := .step (enters_array_iff.2 ⟨by decide, rfl⟩) hlast
  have hleads : LeadsTo doc ["a", "1", "b"] [0, 1, 0] (.bool true) :=
    .step (.member rfl List.not_mem_nil) helement
  refine ⟨hleads, fun path v h => ?_, rfl, rfl, rfl⟩
  exact ((find_first_failure doc).2.2 _ _ _ _ _ _ h hleads).1 rfl

end DesignTokens.Pointer
