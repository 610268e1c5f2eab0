/-
The type of a token by rules. A node inherits the type of the nearest group
around it that declares one (`Inherits`), and its own type is the one that it
declares or else inherits (`HasType`). `ownType_eq_some_iff` says that the walk
up the parents finds it in every store. The walk is cut off after as many steps
as there are nodes, and parents may form a circle; but the walk to the nearest
group never comes by a node twice, so nothing is cut off from it.
-/
import DesignTokens.Resolution.Basic

namespace DesignTokens

/-- The type that is declared on the nearest group around a node. -/
def Store.inheritedType (s : Store) (n : Node) : Option TokenType :=
  ((s.ancestors n.id).filter Node.isGroup).findSome? fun a => a.content.declaredType

/-- The type that comes down to what is below a node. -/
def Content.passed (inherited : Option TokenType) : Content → Option TokenType
  | group g => g.declaredType.or inherited
  | _ => inherited

theorem Node.findSome?_passed (n : Node) (above : List Node) :
    ((n :: above).filter Node.isGroup).findSome? (fun a => a.content.declaredType) =
      n.content.passed ((above.filter Node.isGroup).findSome? fun a => a.content.declaredType) := by
  obtain ⟨id, p, o, c⟩ := n
  cases c with
  | group g =>
    obtain ⟨name, notes, declared⟩ := g
    cases declared <;> rfl
  | _ => rfl

namespace Store

variable {s : Store}

/-- The nearest group around a node that declares a type declares this one. -/
inductive Inherits (s : Store) : NodeId → TokenType → Prop
  | nearest {id p : NodeId} {n g : Node} {type : TokenType}
      (stored : s.node? id = some n) (below : n.parent = some p) (around : s.node? p = some g)
      (group : g.isGroup) (declared : g.content.declaredType = some type) : Inherits s id type
  | further {id p : NodeId} {n a : Node} {type : TokenType}
      (stored : s.node? id = some n) (below : n.parent = some p) (around : s.node? p = some a)
      (silent : a.isGroup → a.content.declaredType = none) (inherits : Inherits s p type) :
      Inherits s id type

/-- The type that a node declares, or else inherits. -/
def HasType (s : Store) (n : Node) (type : TokenType) : Prop :=
  n.content.declaredType = some type ∨
    n.content.declaredType = none ∧ s.Inherits n.id type

/-! ## What a node passes down -/

theorem passed_of_declared {n : Node} {type : TokenType} (hg : n.isGroup)
    (hd : n.content.declaredType = some type) (inherited : Option TokenType) :
    n.content.passed inherited = some type := by
  obtain ⟨_, _, _, c⟩ := n
  cases c with
  | group g => exact (congrArg (·.or inherited) hd).trans rfl
  | _ => cases hg

theorem passed_of_silent {n : Node} (h : n.isGroup → n.content.declaredType = none)
    (inherited : Option TokenType) : n.content.passed inherited = inherited := by
  obtain ⟨_, _, _, c⟩ := n
  cases c with
  | group g => exact (congrArg (·.or inherited) (h rfl)).trans rfl
  | _ => rfl

theorem declared_or_silent (n : Node) :
    (n.isGroup ∧ ∃ type, n.content.declaredType = some type) ∨
      (n.isGroup → n.content.declaredType = none) := by
  by_cases hg : n.isGroup
  · cases hd : n.content.declaredType with
    | none => exact .inr fun _ => rfl
    | some type => exact .inl ⟨hg, type, rfl⟩
  · exact .inr fun h => absurd h hg

/-! ## The walk up -/

/-- The type that a walk of so many steps finds, from an id up along the parents. -/
def typeUp (s : Store) (steps : Nat) (from? : Option NodeId) : Option TokenType :=
  ((s.chainUp steps from?).filter Node.isGroup).findSome? fun a => a.content.declaredType

theorem typeUp_succ {id : NodeId} {n : Node} (hn : s.node? id = some n) (steps : Nat) :
    s.typeUp (steps + 1) (some id) = n.content.passed (s.typeUp steps n.parent) := by
  simp only [typeUp, chainUp, hn, Node.findSome?_passed]

/-- A walk that finds a type has come to a node, and found it there or further up. -/
theorem of_typeUp {steps : Nat} {from? : Option NodeId} {type : TokenType}
    (h : s.typeUp steps from? = some type) : ∃ k id n, steps = k + 1 ∧ from? = some id ∧
      s.node? id = some n ∧ n.content.passed (s.typeUp k n.parent) = some type := by
  cases steps with
  | zero => cases h
  | succ k =>
    cases from? with
    | none => cases h
    | some id =>
      cases hn : s.node? id with
      | none => simp [typeUp, chainUp, hn] at h
      | some n => exact ⟨k, id, n, rfl, rfl, hn, typeUp_succ hn k ▸ h⟩

theorem typeUp_mono {k steps : Nat} {from? : Option NodeId} {type : TokenType}
    (h : s.typeUp k from? = some type) (hle : k ≤ steps) : s.typeUp steps from? = some type := by
  induction k generalizing steps from? with
  | zero => cases h
  | succ k ih =>
    obtain ⟨_, id, n, hk, rfl, hn, hp⟩ := of_typeUp h
    cases hk
    obtain ⟨steps, rfl⟩ : ∃ m, steps = m + 1 := ⟨steps - 1, by omega⟩
    rw [typeUp_succ hn]
    rcases declared_or_silent n with ⟨hg, _, hd⟩ | hs
    · rwa [passed_of_declared hg hd] at hp ⊢
    · rw [passed_of_silent hs] at hp ⊢
      exact ih hp (Nat.le_of_succ_le_succ hle)

theorem inherits_of_typeUp {steps : Nat} {id : NodeId} {n : Node} {type : TokenType}
    (hn : s.node? id = some n) (h : s.typeUp steps n.parent = some type) : s.Inherits id type := by
  induction steps generalizing id n with
  | zero => cases h
  | succ steps ih =>
    obtain ⟨_, p, a, hk, hp, ha, hpassed⟩ := of_typeUp h
    cases hk
    rcases declared_or_silent a with ⟨hg, _, hd⟩ | hs
    · rw [passed_of_declared hg hd] at hpassed
      cases hpassed
      exact .nearest hn hp ha hg hd
    · rw [passed_of_silent hs] at hpassed
      exact .further hn hp ha hs (ih ha hpassed)

theorem Inherits.exists_typeUp {id : NodeId} {type : TokenType} (h : s.Inherits id type) :
    ∀ n, s.node? id = some n → ∃ steps, s.typeUp steps n.parent = some type := by
  induction h with
  | nearest stored below around group declared =>
    intro m hm
    cases stored.symm.trans hm
    refine ⟨1, ?_⟩
    rw [below, typeUp_succ around, passed_of_declared group declared]
  | further stored below around silent _ ih =>
    intro m hm
    cases stored.symm.trans hm
    obtain ⟨steps, hs⟩ := ih _ around
    refine ⟨steps + 1, ?_⟩
    rw [below, typeUp_succ around, passed_of_silent silent, hs]

/--
The shortest walk that finds a type enters no node twice, so that it takes no
more steps than there are nodes. A node it has been at is one from which the
steps that are left do not suffice.
-/
theorem typeUp_unvisited {k : Nat} {from? : Option NodeId} {type : TokenType} {visited : List NodeId}
    (h : s.typeUp k from? = some type) (hshortest : ∀ j < k, s.typeUp j from? ≠ some type)
    (hvisited : ∀ c ∈ visited, ∀ j ≤ k, s.typeUp j (some c) ≠ some type) :
    s.typeUp (s.unvisited visited) from? = some type := by
  induction k generalizing from? visited with
  | zero => cases h
  | succ k ih =>
    obtain ⟨_, id, n, hk, rfl, hn, hp⟩ := of_typeUp h
    cases hk
    have hnew : id ∉ visited := fun hc => hvisited id hc (k + 1) (Nat.le_refl _) h
    have hlt : s.unvisited (visited ++ [id]) < s.unvisited visited :=
      unvisited_append_lt (mem_ids_of_node? hn) hnew
    obtain ⟨left, hleft⟩ : ∃ m, s.unvisited visited = m + 1 := ⟨s.unvisited visited - 1, by omega⟩
    rw [hleft, typeUp_succ hn]
    rcases declared_or_silent n with ⟨hg, _, hd⟩ | hs
    · rwa [passed_of_declared hg hd] at hp ⊢
    · rw [passed_of_silent hs] at hp ⊢
      have hup : ∀ j < k, s.typeUp j n.parent ≠ some type := fun j hj hj' =>
        hshortest (j + 1) (Nat.succ_lt_succ hj) (by rw [typeUp_succ hn, passed_of_silent hs, hj'])
      refine typeUp_mono (k := s.unvisited (visited ++ [id])) (ih hp hup fun c hc j hj => ?_)
        (by omega)
      rcases List.mem_append.1 hc with hc | hc
      · exact hvisited c hc j (Nat.le_succ_of_le hj)
      · exact List.mem_singleton.1 hc ▸ hshortest j (Nat.lt_succ_of_le hj)

theorem unvisited_nil : s.unvisited [] = s.size := by
  rw [unvisited, List.filter_eq_self.2 fun _ _ => by simp, ids, Dict.keys, List.length_map, size]

theorem typeUp_size {k : Nat} {from? : Option NodeId} {type : TokenType}
    (h : s.typeUp k from? = some type) : s.typeUp s.size from? = some type := by
  induction k using Nat.strongRecOn with
  | ind k ih =>
    by_cases hshorter : ∃ j, j < k ∧ s.typeUp j from? = some type
    · obtain ⟨j, hj, hfound⟩ := hshorter
      exact ih j hj hfound
    · rw [← unvisited_nil]
      exact typeUp_unvisited h (fun j hj hfound => hshorter ⟨j, hj, hfound⟩) fun _ hc => nomatch hc

/-! ## The types are found -/

theorem inheritedType_eq_some_iff {n : Node} {type : TokenType} :
    s.inheritedType n = some type ↔ s.Inherits n.id type := by
  cases hn : s.node? n.id with
  | none =>
    have hnone : s.inheritedType n = none := by simp [inheritedType, ancestors, hn]
    rw [hnone]
    refine ⟨(nomatch ·), fun h => ?_⟩
    cases h with
    | nearest stored => cases hn.symm.trans stored
    | further stored => cases hn.symm.trans stored
  | some m =>
    have hup : s.inheritedType n = s.typeUp s.size m.parent := by
      simp only [inheritedType, ancestors, hn, typeUp]
    rw [hup]
    exact ⟨inherits_of_typeUp hn, fun h => typeUp_size (h.exists_typeUp m hn).choose_spec⟩

theorem ownType_eq_some_iff {n : Node} {type : TokenType} :
    s.ownType n = some type ↔ s.HasType n type := by
  have hown : s.ownType n = n.content.declaredType.or (s.inheritedType n) := rfl
  rw [hown, HasType, Option.or_eq_some_iff, inheritedType_eq_some_iff]

theorem ownType_eq_none_iff {n : Node} : s.ownType n = none ↔ ∀ type, ¬ s.HasType n type := by
  simp only [Option.eq_none_iff_forall_ne_some, ne_eq, ownType_eq_some_iff]

end Store

end DesignTokens
