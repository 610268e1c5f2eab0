/-
A token is edited: its value, its declared type and its notes change, its name
and its place do not. Lookup sees nothing of that, for it reads outlines alone,
so every alias of the other tokens leads where it led. The types of their own
stay as well: these come from groups, and a token passes none down.

What a token resolves to is made of the tokens that its references lead to. If
the edited one is not among them, nothing is left by which the edit could be
seen (`edit_is_local`).
-/
import DesignTokens.Proofs.Resolution.Circular
import DesignTokens.Proofs.Resolution.Target

namespace DesignTokens

/-- The node with another token in its place. -/
def Node.withToken (n : Node) (t : Token) : Node := { n with content := .token t }

@[simp] theorem Node.id_withToken (n : Node) (t : Token) : (n.withToken t).id = n.id := rfl

theorem Node.outline_withToken {n : Node} {u v : Token} (hu : n.content = .token u)
    (hname : v.name = u.name) : (n.withToken v).outline = n.outline := by
  obtain ⟨id, p, o, c⟩ := n
  subst hu
  simp only [outline, withToken, name, Content.name, Content.kind, hname]

/-- The type that a node passes down to what is below it. -/
def Node.passes? (n : Node) : Option TokenType := if n.isGroup then n.content.declaredType else none

theorem Node.findSome?_passes (l : List Node) :
    (l.filter Node.isGroup).findSome? (fun a => a.content.declaredType) = l.findSome? passes? := by
  induction l with
  | nil => rfl
  | cons a l ih =>
    rw [List.filter_cons, List.findSome?_cons, passes?]
    by_cases ha : a.isGroup
    · rw [if_pos ha, if_pos ha, List.findSome?_cons, ih]
    · rw [if_neg ha, if_neg ha]
      exact ih

namespace Store

/-- The store once a node has become another token. -/
def edited (s : Store) (n : Node) (v : Token) : Store := s.commit (Batch.empty.set (n.withToken v))

section

variable {s : Store} (hs : s.Consistent) {y : NodeId} {m : Node} {u v : Token}
  (hm : s.node? y = some m) (hu : m.content = .token u)

include hs hm

theorem node?_edited (id : NodeId) :
    (s.edited m v).node? id = if y = id then some (m.withToken v) else s.node? id := by
  have hput := node?_put s (m.withToken v) id
  rwa [Node.id_withToken, hs.id_of_node? hm] at hput

theorem node?_edited_of_ne {id : NodeId} (hid : id ≠ y) : (s.edited m v).node? id = s.node? id := by
  rw [node?_edited hs hm, if_neg (Ne.symm hid)]

include hu

theorem sameOutline_edited (hname : v.name = u.name) : s.SameOutline (s.edited m v) := by
  have hstored : s.node? (m.withToken v).id = some m := by
    rw [Node.id_withToken, hs.id_of_node? hm, hm]
  exact hs.sameOutline_put hstored rfl (Node.outline_withToken hu hname)

/-- A token passes no type down, and so the edited one is as silent as it was. -/
theorem inheritedType_edited (hname : v.name = u.name) (a : Node) :
    (s.edited m v).inheritedType a = s.inheritedType a := by
  let seen (n : Node) := (n.outline, n.passes?)
  have hnode : ∀ id, (s.node? id).map seen = ((s.edited m v).node? id).map seen := by
    intro id
    rw [node?_edited hs hm]
    split
    · next he =>
      have hsilent : m.passes? = none := by
        obtain ⟨_, _, _, c⟩ := m
        subst hu
        rfl
      rw [← he, hm, Option.map_some, Option.map_some, Option.some.injEq, Prod.mk.injEq,
        Node.outline_withToken hu hname, hsilent]
      exact ⟨rfl, rfl⟩
    · rfl
  have hancestors := map_ancestors hnode
    (fun _ _ he => Node.parent_eq_of_outline (congrArg Prod.fst he))
    (sameOutline_edited hs hm hu hname).size a.id
  rw [inheritedType, inheritedType, Node.findSome?_passes, Node.findSome?_passes]
  exact (findSome?_of_map_eq hancestors fun _ _ he => congrArg Prod.snd he).symm

/-- What is resolved from a token that does not lead to the edited one has not changed. -/
theorem agreeOn_edited (hname : v.name = u.name) {x : NodeId}
    (hfree : ¬ Relation.ReflTransGen s.RefersTo x y) :
    AgreeOn (Relation.ReflTransGen s.RefersTo x) s (s.edited m v) where
  toSameOutline := sameOutline_edited hs hm hu hname
  type id a b hid ha hb := by
    have hne : id ≠ y := fun he => hfree (he ▸ hid)
    rw [node?_edited_of_ne hs hm hne, ha] at hb
    cases hb
    exact congrArg (Option.or _) (inheritedType_edited hs hm hu hname a).symm
  value id a b c d hid ha hc hb hd := by
    have hne : id ≠ y := fun he => hfree (he ▸ hid)
    rw [node?_edited_of_ne hs hm hne, ha] at hb
    cases hb
    cases hc.symm.trans hd
    rfl
  closed _ _ ha hab := ha.tail hab

/-- An alias of any node leads where it led; where that is the edited token, it is the new one. -/
theorem target_edited (hname : v.name = u.name) (ref : Alias) (holder : NodeId) :
    (s.edited m v).target ref holder = (s.target ref holder).map (replaced (m.withToken v)) := by
  have ht : (s.edited m v).Consistent := hs.commit _
  rcases (sameOutline_edited hs hm hu hname).target_cases ref holder with
    ⟨e, he, he'⟩ | ⟨a, b, ha, hb, hab⟩
  · rw [he, he']
    rfl
  · have hstored := (hs.stored_of_target ha).1
    have hstored' := (ht.stored_of_target hb).1
    have hba : b = replaced (m.withToken v) a := by
      rw [replaced, Node.id_withToken, hs.id_of_node? hm]
      rw [node?_edited hs hm, ← hab] at hstored'
      by_cases hy : a.id = y
      · rw [if_pos hy.symm] at hstored'
        rw [if_pos hy]
        exact (Option.some.inj hstored').symm
      · rw [if_neg (Ne.symm hy), hstored] at hstored'
        rw [if_neg hy]
        exact (Option.some.inj hstored').symm
    rw [ha, hb, hba]
    rfl

end

/--
**Edits are local.** Let a token take any other value, declared type and notes,
and keep its name and its place. Then every other token that does not lead to it
along references resolves as before, to the same value or the same error, and
has the type that it had. And every alias of every token but the edited one has
the target that it had, which is the new token where it was the old one.
-/
theorem edit_is_local {s : Store} (hs : s.Reachable) {y : NodeId} {m : Node} {u v : Token}
    (hm : s.node? y = some m) (hu : m.content = .token u) (hname : v.name = u.name) {x : NodeId}
    (hxy : x ≠ y) (hfree : ¬ Relation.TransGen s.RefersTo x y) :
    (s.edited m v).resolve x = s.resolve x ∧
    (s.edited m v).typeOf x = s.typeOf x ∧
    ∀ z k t, z ≠ y → s.node? z = some k → k.content = .token t →
      (s.edited m v).node? z = some k ∧ ∀ ref ∈ t.value.aliases,
        (s.edited m v).target ref z = (s.target ref z).map (replaced (m.withToken v)) := by
  have hc := hs.consistent
  have hapart : ¬ Relation.ReflTransGen s.RefersTo x y := by
    rw [Relation.reflTransGen_iff_eq_or_transGen]
    exact fun h => h.elim (fun he => hxy he.symm) hfree
  have hagree := agreeOn_edited hc hm hu hname hapart
  refine ⟨(hagree.resolve .refl).symm, (hagree.typeOf .refl).symm, fun z k t hz hk _ => ⟨?_, ?_⟩⟩
  · rw [node?_edited_of_ne hc hm hz, hk]
  · exact fun ref _ => target_edited hc hm hu hname ref z

/-- The length of a dash becomes an alias into a circle: the circle is reported as before, and the
stroke still finds its dash. -/
theorem edit_is_local_knot :
    knot.Reachable ∧ ∃ free line : Node, ∃ u v t : Token, knot.node? ⟨"free"⟩ = some free ∧
      free.content = .token u ∧ v.name = u.name ∧ v.value = .aliasTo (.path "gap.in") ∧
      (⟨"in"⟩ : NodeId) ≠ ⟨"free"⟩ ∧ ¬ Relation.TransGen knot.RefersTo ⟨"in"⟩ ⟨"free"⟩ ∧
      (knot.edited free v).resolve ⟨"in"⟩ = .error (.circle ["gap.in", "gap.out", "gap.in"]) ∧
      knot.node? ⟨"line"⟩ = some line ∧ line.content = .token t ∧
      (.id ⟨"free"⟩ : Alias) ∈ t.value.aliases ∧
      (knot.edited free v).target (.id ⟨"free"⟩) ⟨"line"⟩ = .ok (free.withToken v) := by
  have hr : knot.Reachable := reachable_ofNodes _
  have hne : (⟨"in"⟩ : NodeId) ≠ ⟨"free"⟩ := by decide
  have hfree : ¬ Relation.TransGen knot.RefersTo ⟨"in"⟩ ⟨"free"⟩ := by
    have hopen : ¬ Relation.ReflTransGen knot.RefersTo ⟨"in"⟩ ⟨"free"⟩ := by
      rw [← closesCircle_eq_true_iff hr.consistent, closesCircle_knot.2]
      exact Bool.false_ne_true
    exact fun h => hopen h.to_reflTransGen
  let v : Token := ⟨"free", .none, none, .aliasTo (.path "gap.in")⟩
  have hlocal := edit_is_local (v := v) hr (y := ⟨"free"⟩) rfl rfl rfl hne hfree
  refine ⟨hr, _, _, _, v, _, rfl, rfl, rfl, rfl, hne, hfree, ?_, rfl, rfl, ?_, ?_⟩
  · rw [hlocal.1]
    decide +kernel
  · decide
  · rw [(hlocal.2.2 ⟨"line"⟩ _ _ (by decide) rfl rfl).2 (.id ⟨"free"⟩) (by decide)]
    decide +kernel

end Store

end DesignTokens
