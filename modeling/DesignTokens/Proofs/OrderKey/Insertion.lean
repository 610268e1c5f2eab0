/-
Siblings that come in one after another. Each is given a key between those of its
neighbours, so the keys stay ascending, and each new key is a bound for the ones
that come later, as long as nothing is put in front of the floor. What stands
there has a key that no later insertion accepts.
-/
import DesignTokens.OrderKey.Sequence
import DesignTokens.Proofs.OrderKey.Between

namespace DesignTokens.OrderKey

instance (s : String) : Decidable (Accepted s) :=
  match h : ofBound s with
  | .ok k => .isTrue ⟨k, h⟩
  | .error _ => .isFalse fun ⟨_, hk⟩ => nomatch h.symm.trans hk

/-- Keys of siblings: each may be given as a bound, and they ascend in the order of bytes. -/
structure Orderly (keys : List String) : Prop where
  accepted : ∀ s ∈ keys, Accepted s
  ascending : keys.Pairwise Text.BytesLt

instance (keys : List String) : Decidable (Orderly keys) :=
  have : DecidableRel Text.BytesLt := fun a b =>
    inferInstanceAs (Decidable (Pointer.utf8 a.toList < Pointer.utf8 b.toList))
  decidable_of_iff ((∀ s ∈ keys, Accepted s) ∧ keys.Pairwise Text.BytesLt)
    ⟨fun h => ⟨h.1, h.2⟩, fun h => ⟨h.accepted, h.ascending⟩⟩

/-- The keys after a new sibling has come in front of the one at a position, or behind all. -/
def insertAt (keys : List String) (position : Nat) : Except KeyError (List String) := do
  let k ← keyAt keys position
  let place := min position keys.length
  return keys.take place ++ k :: keys.drop place

/-- The keys after new siblings have come in one after another. -/
def insertRun (keys : List String) : List Nat → Except KeyError (List String)
  | [] => .ok keys
  | position :: positions => do
    let keys ← insertAt keys position
    insertRun keys positions

/-! ## One insertion -/

theorem Orderly.nodup {keys : List String} (h : Orderly keys) : keys.Nodup := by
  refine h.ascending.imp ?_
  rintro s _ hlt rfl
  exact List.lt_irrefl _ hlt

theorem Orderly.exists_keys {keys : List String} (h : Orderly keys) :
    ∃ ks : List OrderKey, keys = ks.map text ∧ (∀ k ∈ ks, k.Valid) ∧ ks.Pairwise (· < ·) := by
  obtain ⟨hs, hpair⟩ := h
  induction keys with
  | nil => exact ⟨[], rfl, by simp, .nil⟩
  | cons s keys ih =>
    obtain ⟨ks, rfl, hvalid, hks⟩ := ih (fun t ht => hs t (List.mem_cons_of_mem _ ht)) hpair.of_cons
    obtain ⟨k, hv, rfl⟩ := accepted_iff.1 (hs s (List.mem_cons_self ..))
    refine ⟨k :: ks, rfl, List.forall_mem_cons.2 ⟨hv, hvalid⟩, List.pairwise_cons.2 ⟨?_, hks⟩⟩
    intro l hl
    exact bytesLt_text_iff.1 ((List.pairwise_cons.1 hpair).1 _ (List.mem_map_of_mem hl))

/-- The key for a position is one between the keys before it and those from it on. -/
theorem keyAt_eq (keys : List String) (position : Nat) :
    keyAt keys position = keyWithin (keys.take (min position keys.length)).getLast?
      (keys.drop (min position keys.length)).head? := by
  have hle : min position keys.length ≤ keys.length := Nat.min_le_right ..
  simp only [keyAt, List.head?_drop, List.getLast?_take]
  split
  · rfl
  · next hne =>
    have hlt : min position keys.length - 1 < keys.length := by omega
    rw [List.getElem?_eq_getElem hlt, Option.some_or]

theorem pairwise_insert {front back : List OrderKey} {k : OrderKey}
    (h : (front ++ back).Pairwise (· < ·)) (hk : Inside front.getLast? back.head? k) :
    (front ++ k :: back).Pairwise (· < ·) := by
  obtain ⟨hfront, hback, hcross⟩ := List.pairwise_append.1 h
  have habove : ∀ b ∈ back, k < b := by
    intro b hb
    cases back with
    | nil => cases hb
    | cons c cs =>
      have hkc : k < c := hk.2 c rfl
      rcases List.mem_cons.1 hb with rfl | hb
      · exact hkc
      · exact lt_trans hkc ((List.pairwise_cons.1 hback).1 b hb)
  have hbelow : ∀ a ∈ front, a < k := by
    intro a ha
    obtain ⟨init, last, rfl⟩ : ∃ init last, front = init ++ [last] :=
      ⟨_, _, (List.dropLast_append_getLast (List.ne_nil_of_mem ha)).symm⟩
    have hlast : last < k := hk.1 last (by simp)
    rcases List.mem_append.1 ha with ha | ha
    · exact lt_trans ((List.pairwise_append.1 hfront).2.2 a ha last (by simp)) hlast
    · exact List.mem_singleton.1 ha ▸ hlast
  refine List.pairwise_append.2 ⟨hfront, List.pairwise_cons.2 ⟨habove, hback⟩, ?_⟩
  intro a ha b hb
  rcases List.mem_cons.1 hb with rfl | hb
  · exact hbelow a ha
  · exact hcross a ha b hb

theorem front_of_floor_iff {ks : List OrderKey} (hvalid : ∀ k ∈ ks, k.Valid) (position : Nat) :
    (ks.take (min position ks.length)).getLast? = none ∧
        (ks.drop (min position ks.length)).head? = some floor ↔
      position = 0 ∧ (ks.map text).head? = some floor.text := by
  cases ks with
  | nil => simp
  | cons k ks =>
    cases position with
    | succ n =>
      rw [List.length_cons, Nat.add_min_add_right]
      simp
    | zero =>
      have hk := hvalid k (List.mem_cons_self ..)
      have heq : k.text = floor.text ↔ k = floor :=
        ⟨eq_of_text_eq hk.1 valid_floor.1, congrArg text⟩
      simp [heq]

/-- A new sibling finds a key, and one that is accepted unless it comes in front of the floor. -/
theorem insertAt_spec {keys : List String} (h : Orderly keys) (position : Nat) :
    ∃ k front back, insertAt keys position = .ok (front ++ k :: back) ∧ keys = front ++ back ∧
      (front ++ k :: back).Pairwise Text.BytesLt ∧
      (Accepted k ↔ ¬ (position = 0 ∧ keys.head? = some floor.text)) := by
  obtain ⟨ks, rfl, hvalid, hks⟩ := h.exists_keys
  have hsplit := List.take_append_drop (min position ks.length) ks
  rw [← hsplit] at hks
  obtain ⟨-, -, hcross⟩ := List.pairwise_append.1 hks
  have hl : ∀ a ∈ (ks.take (min position ks.length)).getLast?, a.Valid := fun a ha =>
    hvalid a (List.mem_of_mem_take (List.mem_of_getLast? ha))
  have hu : ∀ b ∈ (ks.drop (min position ks.length)).head?, b.Valid := fun b hb =>
    hvalid b (List.mem_of_mem_drop (List.mem_of_head? hb))
  obtain ⟨k, hk, hinside, hwf, hv⟩ := between?_spec hl hu fun a ha b hb =>
    hcross a (List.mem_of_getLast? ha) b (List.mem_of_head? hb)
  have hpair := pairwise_insert hks hinside
  refine ⟨k.text, (ks.take (min position ks.length)).map text,
    (ks.drop (min position ks.length)).map text, ?_, ?_, ?_, ?_⟩
  · have hkey : keyAt (ks.map text) position = .ok k.text := by
      rw [keyAt_eq, List.length_map, ← List.map_take, ← List.map_drop, List.getLast?_map,
        List.head?_map, keyWithin_text hl hu, hk]
      rfl
    simp only [insertAt, hkey, bind, Except.bind, pure, Except.pure, List.length_map,
      List.map_take, List.map_drop]
  · rw [← List.map_append, hsplit]
  · have hmap := List.pairwise_map.2 (hpair.imp fun {a b} hab => bytesLt_text_iff.2 hab)
    rwa [List.map_append, List.map_cons] at hmap
  · rw [accepted_text_iff hwf, hv, front_of_floor_iff hvalid]

/-! ## Runs -/

/-- Some sibling of a run is put in front of the floor, which stands first by then. -/
def MeetsFloor (keys : List String) (positions : List Nat) : Prop :=
  ∃ before after rest, positions = before ++ 0 :: after ∧
    insertRun keys before = .ok (floor.text :: rest)

theorem mem_of_insertAt {keys keys' : List String} {position : Nat}
    (h : insertAt keys position = .ok keys') {s : String} (hs : s ∈ keys) : s ∈ keys' := by
  simp only [insertAt, Outcome.bind_eq_ok_iff, Outcome.pure_eq_ok_iff] at h
  obtain ⟨k, -, rfl⟩ := h
  rw [← List.take_append_drop (min position keys.length) keys, List.mem_append] at hs
  rcases hs with hs | hs
  · exact List.mem_append_left _ hs
  · exact List.mem_append_right _ (List.mem_cons_of_mem _ hs)

/-- Keys stay where they are. -/
theorem mem_of_insertRun {keys keys' : List String} {positions : List Nat}
    (h : insertRun keys positions = .ok keys') {s : String} (hs : s ∈ keys) : s ∈ keys' := by
  induction positions generalizing keys with
  | nil =>
    cases h
    exact hs
  | cons position positions ih =>
    simp only [insertRun, Outcome.bind_eq_ok_iff] at h
    obtain ⟨keys₁, h₁, h⟩ := h
    exact ih h (mem_of_insertAt h₁ hs)

theorem meetsFloor_cons_iff {keys keys₁ : List String} {position : Nat} {positions : List Nat}
    (h : insertAt keys position = .ok keys₁) :
    MeetsFloor keys (position :: positions) ↔
      position = 0 ∧ keys.head? = some floor.text ∨ MeetsFloor keys₁ positions := by
  constructor
  · rintro ⟨before, after, rest, hpos, hrun⟩
    cases before with
    | nil =>
      rw [insertRun, Except.ok.injEq] at hrun
      exact .inl ⟨(List.cons.inj hpos).1, by rw [hrun]; rfl⟩
    | cons p before =>
      rw [List.cons_append, List.cons.injEq] at hpos
      obtain ⟨rfl, hpos⟩ := hpos
      simp only [insertRun, h, bind, Except.bind] at hrun
      exact .inr ⟨before, after, rest, hpos, hrun⟩
  · rintro (⟨rfl, hhead⟩ | ⟨before, after, rest, hpos, hrun⟩)
    · obtain ⟨rest, rfl⟩ := List.head?_eq_some_iff.1 hhead
      exact ⟨[], positions, rest, rfl, rfl⟩
    · refine ⟨position :: before, after, rest, by rw [hpos, List.cons_append], ?_⟩
      simp only [insertRun, h, bind, Except.bind]
      exact hrun

/--
**Insertions never run out of room, except in front of the floor.** From the keys
of siblings in order, a run of insertions at any positions succeeds, and leaves
keys that are in order again, distinct and accepted as bounds, just if none of
its siblings is put in front of the floor.
-/
theorem insertRun_orderly_iff {keys : List String} (h : Orderly keys) (positions : List Nat) :
    (∃ keys', insertRun keys positions = .ok keys' ∧ Orderly keys' ∧ keys'.Nodup) ↔
      ¬ MeetsFloor keys positions := by
  induction positions generalizing keys with
  | nil =>
    refine iff_of_true ⟨keys, rfl, h, h.nodup⟩ ?_
    rintro ⟨before, after, rest, hpos, -⟩
    cases before <;> cases hpos
  | cons position positions ih =>
    obtain ⟨k, front, back, hinsert, rfl, hpair, hk⟩ := insertAt_spec h position
    rw [meetsFloor_cons_iff hinsert, not_or, ← hk]
    simp only [insertRun, hinsert, bind, Except.bind]
    by_cases haccepted : Accepted k
    · have hkeys : Orderly (front ++ k :: back) := by
        refine ⟨fun s hs => ?_, hpair⟩
        rw [List.mem_append, List.mem_cons] at hs
        rcases hs with hs | rfl | hs
        · exact h.accepted s (List.mem_append_left _ hs)
        · exact haccepted
        · exact h.accepted s (List.mem_append_right _ hs)
      rw [ih hkeys, and_iff_right haccepted]
    · -- The key in front of the floor is not accepted, and no later insertion takes it away.
      refine iff_of_false ?_ fun hn => haccepted hn.1
      rintro ⟨keys', hrun, hkeys', -⟩
      exact haccepted (hkeys'.accepted k (mem_of_insertRun hrun (by simp)))

/-- At both ends of the integer parts: below a fraction of the least, behind the greatest, and
then below the fraction again, above what came in there. -/
theorem insertRun_atBothEnds :
    Orderly ["A00000000000000000000000000V", "zzzzzzzzzzzzzzzzzzzzzzzzzzz"] ∧
      insertRun ["A00000000000000000000000000V", "zzzzzzzzzzzzzzzzzzzzzzzzzzz"] [0, 9, 1] =
        .ok ["A00000000000000000000000000G", "A00000000000000000000000000O",
          "A00000000000000000000000000V", "zzzzzzzzzzzzzzzzzzzzzzzzzzz",
          "zzzzzzzzzzzzzzzzzzzzzzzzzzzV"] ∧
      ¬ MeetsFloor ["A00000000000000000000000000V", "zzzzzzzzzzzzzzzzzzzzzzzzzzz"] [0, 9, 1] := by
  have horderly : Orderly ["A00000000000000000000000000V", "zzzzzzzzzzzzzzzzzzzzzzzzzzz"] := by
    decide
  have hrun : insertRun ["A00000000000000000000000000V", "zzzzzzzzzzzzzzzzzzzzzzzzzzz"] [0, 9, 1] =
      .ok ["A00000000000000000000000000G", "A00000000000000000000000000O",
        "A00000000000000000000000000V", "zzzzzzzzzzzzzzzzzzzzzzzzzzz",
        "zzzzzzzzzzzzzzzzzzzzzzzzzzzV"] := by
    decide
  exact ⟨horderly, hrun, (insertRun_orderly_iff horderly _).1 ⟨_, hrun, by decide, by decide⟩⟩

/-- In front of the floor the least integer part is given, and nothing comes in before that. -/
theorem insertRun_before_floor :
    Orderly ["A00000000000000000000000001"] ∧
      insertRun ["A00000000000000000000000001"] [0] =
        .ok ["A00000000000000000000000000", "A00000000000000000000000001"] ∧
      ¬ Accepted "A00000000000000000000000000" ∧
      insertRun ["A00000000000000000000000001"] [0, 0] =
        .error (.invalid "A00000000000000000000000000") := by
  decide

end DesignTokens.OrderKey
