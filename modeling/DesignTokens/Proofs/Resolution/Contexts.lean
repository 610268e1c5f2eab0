/-
What a modifier shows. Layers come from what stands at the top of a store or
within resolvers that do (`mem_layers_iff`), and a modifier in sight adds one of
its contexts: the one that the looking node lies in, failing that the one named
by its default, failing that its first.

A token that is found in a layer hangs on it by groups, so the nearest node
around it that is no group is the container that makes the layer. So nothing is
ever found in two contexts of one modifier, nor, from inside one of them, in
another (`contexts_never_mixed`). Parents that are missing or lead in a circle
make no difference, for what they lead away from a root is in no layer.
-/
import DesignTokens.Proofs.Resolution.Target
import DesignTokens.Proofs.Store.Lineage

namespace DesignTokens.Store

/-! ## Layers by their containers -/

/-- The resolvers from a parent up to a root, the nearest first. -/
structure Opened (s : Store) (p : Option NodeId) (above : List Node) : Prop where
  lineage : s.Lineage p above
  resolvers : ∀ r ∈ above, ∃ info, r.content = .resolver info

/-- A node stands at the top of a store, or within resolvers that do. -/
def InSight (s : Store) (n : Node) : Prop := ∃ above, s.Opened n.parent above

/-- The layers that a node adds itself, apart from those that stand within it. -/
def ownLayers (s : Store) (active : List (NodeId × NodeId)) (n : Node) : List NodeId :=
  match n.content with
  | .set _ | .context _ => [n.id]
  | .modifier m => ((s.chosenContext? active n.id m).map (·.id)).toList
  | _ => []

variable {s : Store}

namespace Opened

variable {p : Option NodeId} {above : List Node}

theorem inside {n : Node} (h : s.Opened n.parent above) (hn : s.node? n.id = some n)
    {info : ResolverInfo} (hr : n.content = .resolver info) : s.Opened (some n.id) (n :: above) :=
  ⟨.up hn h.lineage, List.forall_mem_cons.2 ⟨⟨info, hr⟩, h.resolvers⟩⟩

/-- Nothing but a resolver is opened up. -/
theorem eq_of_liesIn {c n : Node} (h : s.Opened c.parent above) (hstored : s.node? c.id = some c)
    (hn : s.LiesIn n c.id) (hkind : ∀ info, n.content ≠ .resolver info) : c = n := by
  cases hn with
  | here stored => exact Option.some.inj (hstored.symm.trans stored)
  | up stored parent lies =>
    cases hstored.symm.trans stored
    have hlineage := h.lineage
    rw [parent] at hlineage
    obtain ⟨info, hr⟩ := h.resolvers n (hlineage.mem_iff.2 lies)
    exact absurd hr (hkind info)

/-- The walk down enters each resolver, for it comes only once on the way up. -/
theorem fresh (hc : s.Consistent) {n : Node} (h : s.Opened n.parent above)
    (hn : s.node? n.id = some n) : n.id ∈ s.ids ∧ n.id ∉ above.map Node.id := by
  refine ⟨mem_ids_of_node? hn, fun hmem => ?_⟩
  obtain ⟨a, ha, he⟩ := List.mem_map.1 hmem
  rw [eq_of_stored (h.lineage.stored_of_mem hc ha) hn he] at ha
  exact (List.nodup_cons.1 (Lineage.up hn h.lineage).nodup).1 ha

end Opened

/-- What lies in a node is the node, or lies in a child of it. -/
theorem liesIn_iff_exists_child (hc : s.Consistent) {n : Node} (hn : s.node? n.id = some n)
    {id : NodeId} :
    s.LiesIn n id ↔ s.node? id = some n ∨ ∃ b ∈ s.children (some n.id), s.LiesIn b id := by
  constructor
  · intro h
    induction h with
    | here stored => exact .inl stored
    | @up id p m stored parent _ ih =>
      refine .inr ?_
      rcases ih with hp | ⟨b, hb, lies⟩
      · obtain rfl := hc.id_of_node? hp
        obtain rfl := hc.id_of_node? stored
        exact ⟨m, hc.mem_children_iff.2 ⟨stored, parent⟩, .here stored⟩
      · exact ⟨b, hb, .up stored parent lies⟩
  · rintro (stored | ⟨b, hb, lies⟩)
    · exact .here stored
    · induction lies with
      | here stored => exact .up stored (hc.mem_children_iff.1 hb).2 (.here hn)
      | up stored parent _ ih => exact .up stored parent ih

section

variable (hc : s.Consistent)

include hc

/-- The layers of a container are those of what stands in it, down through resolvers. -/
theorem mem_containerLayers_iff (active : List (NodeId × NodeId)) {above : List Node} {n : Node}
    (h : s.Opened n.parent above) (hn : s.node? n.id = some n) (id : NodeId) :
    id ∈ s.containerLayers active (above.map Node.id) n ↔
      ∃ c, s.node? c.id = some c ∧ s.InSight c ∧ s.LiesIn n c.id ∧ id ∈ s.ownLayers active c := by
  by_cases hr : ∃ info, n.content = .resolver info
  · obtain ⟨info, hr⟩ := hr
    have hfresh := h.fresh hc hn
    have hlt := unvisited_cons_lt hfresh.1 hfresh.2
    have hchild : ∀ b ∈ s.children (some n.id),
        (id ∈ s.containerLayers active (n.id :: above.map Node.id) b ↔
          ∃ c, s.node? c.id = some c ∧ s.InSight c ∧ s.LiesIn b c.id ∧ id ∈ s.ownLayers active c) := by
      intro b hb
      obtain ⟨hstored, hparent⟩ := hc.mem_children_iff.1 hb
      have hopened := h.inside hn hr
      rw [← hparent] at hopened
      exact mem_containerLayers_iff active hopened hstored id
    rw [containerLayers, hr]
    simp only [dif_pos hfresh, List.mem_flatMap]
    constructor
    · rintro ⟨b, hb, hid⟩
      obtain ⟨c, hstored, hsight, lies, hown⟩ := (hchild b hb).1 hid
      exact ⟨c, hstored, hsight, (liesIn_iff_exists_child hc hn).2 (.inr ⟨b, hb, lies⟩), hown⟩
    · rintro ⟨c, hstored, hsight, lies, hown⟩
      rcases (liesIn_iff_exists_child hc hn).1 lies with he | ⟨b, hb, lies⟩
      · cases hstored.symm.trans he
        rw [ownLayers, hr] at hown
        cases hown
      · exact ⟨b, hb, (hchild b hb).2 ⟨c, hstored, hsight, lies, hown⟩⟩
  · have hown : s.containerLayers active (above.map Node.id) n = s.ownLayers active n := by
      rw [containerLayers, ownLayers]
      cases hkind : n.content with
      | resolver info => exact absurd ⟨info, hkind⟩ hr
      | _ => rfl
    rw [hown]
    constructor
    · exact fun hid => ⟨n, hn, ⟨above, h⟩, .here hn, hid⟩
    · rintro ⟨c, hstored, ⟨around, hopened⟩, lies, hid⟩
      rwa [hopened.eq_of_liesIn hstored lies fun info hi => hr ⟨info, hi⟩] at hid
termination_by s.unvisited (above.map Node.id)

/-- The layers that are seen are those of what stands in sight. -/
theorem mem_layers_iff {from? : Option NodeId} {id : NodeId} :
    some id ∈ s.layers from? ↔ ∃ c, s.node? c.id = some c ∧ s.InSight c ∧
      id ∈ s.ownLayers (s.activeContexts from?) c := by
  have hroot : s.Opened none [] := ⟨.root, List.forall_mem_nil _⟩
  have hcontainer : ∀ n ∈ s.children none,
      (id ∈ s.containerLayers (s.activeContexts from?) [] n ↔ ∃ c, s.node? c.id = some c ∧
        s.InSight c ∧ s.LiesIn n c.id ∧ id ∈ s.ownLayers (s.activeContexts from?) c) := by
    intro n hn
    obtain ⟨hstored, hparent⟩ := hc.mem_children_iff.1 hn
    have hopened : s.Opened n.parent [] := by rwa [hparent]
    simpa only [List.map_nil] using
      mem_containerLayers_iff hc (s.activeContexts from?) hopened hstored id
  simp only [layers, List.mem_cons, List.mem_map, List.mem_flatMap, Option.some.injEq,
    exists_eq_right, reduceCtorEq, false_or]
  constructor
  · rintro ⟨n, hn, hid⟩
    obtain ⟨c, hstored, hsight, -, hown⟩ := (hcontainer n hn).1 hid
    exact ⟨c, hstored, hsight, hown⟩
  · rintro ⟨c, hstored, hsight, hown⟩
    obtain ⟨above, hopened⟩ := hsight
    obtain ⟨n, hn, lies⟩ := (Lineage.up hstored hopened.lineage).exists_root hc
    exact ⟨n, hn, (hcontainer n hn).2 ⟨c, hstored, ⟨above, hopened⟩, lies, hown⟩⟩

end

/-! ## The context of a modifier -/

/-- Of the nodes around another one, the furthest that is a context of a modifier is active. -/
theorem get?_activeContexts (id modifier : NodeId) :
    Dict.get? (s.activeContexts (some id)) modifier =
      (((s.node? id).toList ++ s.ancestors id).reverse.find? fun n =>
        n.isContext && n.parent = some modifier).map (·.id) := by
  rw [activeContexts]
  generalize (s.node? id).toList ++ s.ancestors id = around
  induction around using List.reverseRecOn with
  | nil => rfl
  | append_singleton around n ih =>
    rw [List.foldl_append, List.foldl_cons, List.foldl_nil, List.reverse_append,
      List.reverse_singleton, List.singleton_append, List.find?_cons]
    cases hcontext : n.isContext with
    | false => simpa [hcontext] using ih
    | true =>
      cases hparent : n.parent with
      | none => simpa [hcontext, hparent] using ih
      | some p =>
        by_cases hp : p = modifier
        · simp [hp]
        · simpa [hcontext, hparent, hp, Dict.get?_insert_of_ne] using ih


/-- The context that a modifier shows to nodes outside of it: the first that its default names, or
the first of all where none is named so. -/
def ShownByDefault (s : Store) (modifier : NodeId) (choice : Modifier) (c : Node) : Prop :=
  ∃ before after, s.contexts modifier = before ++ c :: after ∧
    (choice.defaultContext = some c.name ∧ (∀ b ∈ before, choice.defaultContext ≠ some b.name) ∨
      (∀ b ∈ s.contexts modifier, choice.defaultContext ≠ some b.name) ∧ before = [])

section

variable {active : List (NodeId × NodeId)} {modifier : NodeId} {choice : Modifier} {c : Node}

theorem mem_of_chosenContext? (h : s.chosenContext? active modifier choice = some c) :
    c ∈ s.contexts modifier := by
  simp only [chosenContext?, Option.or_eq_some_iff, Option.bind_eq_some_iff] at h
  rcases h with ⟨_, -, h⟩ | ⟨-, ⟨_, -, h⟩ | ⟨-, h⟩⟩
  · exact List.mem_of_find?_eq_some h
  · exact List.mem_of_find?_eq_some h
  · exact List.mem_of_head? h

theorem exists_chosenContext? (h : s.contexts modifier ≠ []) :
    ∃ c, s.chosenContext? active modifier choice = some c := by
  obtain ⟨b, rest, hcs⟩ := List.exists_cons_of_ne_nil h
  rw [← Option.isSome_iff_exists]
  simp [chosenContext?, hcs]

theorem shownByDefault_of_chosenContext? (hactive : Dict.get? active modifier = none)
    (h : s.chosenContext? active modifier choice = some c) : s.ShownByDefault modifier choice c := by
  simp only [chosenContext?, hactive, Option.bind_none, Option.none_or, Option.or_eq_some_iff,
    Option.bind_eq_some_iff] at h
  rcases h with ⟨name, hname, h⟩ | ⟨hnone, h⟩
  · obtain ⟨hc, before, after, he, hbefore⟩ := List.find?_eq_some_iff_append.1 h
    rw [decide_eq_true_eq] at hc
    refine ⟨before, after, he, .inl ⟨hc ▸ hname, fun b hb hdefault => ?_⟩⟩
    have hne := hbefore b hb
    rw [hname, Option.some.injEq] at hdefault
    simp [hdefault] at hne
  · obtain ⟨after, he⟩ := List.head?_eq_some_iff.1 h
    refine ⟨[], after, he, .inr ⟨fun b hb hdefault => ?_, rfl⟩⟩
    rw [hdefault, Option.bind_some] at hnone
    simpa using List.find?_eq_none.1 hnone b hb

end

section

variable (hc : s.Consistent)

include hc

theorem mem_contexts_iff {modifier : NodeId} {c : Node} : c ∈ s.contexts modifier ↔
    s.node? c.id = some c ∧ c.parent = some modifier ∧ c.isContext := by
  rw [contexts, List.mem_filter, hc.mem_children_iff, and_assoc]

theorem chosenContext?_of_active {active : List (NodeId × NodeId)} {modifier : NodeId}
    {choice : Modifier} {c : Node} (hmem : c ∈ s.contexts modifier)
    (hactive : Dict.get? active modifier = some c.id) :
    s.chosenContext? active modifier choice = some c := by
  have hfind : ((s.contexts modifier).find? fun n => n.id = c.id) = some c := by
    cases hf : (s.contexts modifier).find? fun n => n.id = c.id with
    | none =>
      have hnot := List.find?_eq_none.1 hf c hmem
      simp at hnot
    | some b =>
      have hb := List.find?_some hf
      rw [decide_eq_true_eq] at hb
      exact congrArg some (eq_of_stored ((mem_contexts_iff hc).1 (List.mem_of_find?_eq_some hf)).1
        ((mem_contexts_iff hc).1 hmem).1 hb)
  simp only [chosenContext?, hactive, Option.bind_some, hfind, Option.some_or]

theorem LiesIn.stored {a : Node} {id : NodeId} (h : s.LiesIn a id) : s.node? a.id = some a := by
  induction h with
  | here stored => rw [hc.id_of_node? stored, stored]
  | up _ _ _ ih => exact ih

section

variable {m : Node} {choice : Modifier} (hm : s.node? m.id = some m)
  (hmodifier : m.content = .modifier choice)

include hm hmodifier

/-- A context makes a layer just if its modifier is in sight and shows it. -/
theorem mem_layers_context_iff {from? : Option NodeId} {c : Node} (hmem : c ∈ s.contexts m.id) :
    some c.id ∈ s.layers from? ↔
      s.InSight m ∧ s.chosenContext? (s.activeContexts from?) m.id choice = some c := by
  obtain ⟨hstored, hparent, hcontext⟩ := (mem_contexts_iff hc).1 hmem
  rw [mem_layers_iff hc]
  constructor
  · rintro ⟨n, hn, hsight, hown⟩
    rw [ownLayers] at hown
    split at hown
    · next hset =>
      rw [eq_of_stored hstored hn (List.mem_singleton.1 hown), Node.isContext, hset] at hcontext
      cases hcontext
    · -- a context in sight by itself stands at the top or in a resolver
      obtain rfl := eq_of_stored hstored hn (List.mem_singleton.1 hown)
      obtain ⟨above, hopened⟩ := hsight
      have hlineage := hopened.lineage
      rw [hparent] at hlineage
      obtain ⟨rest, rfl, -⟩ := hlineage.of_some hm
      obtain ⟨info, hr⟩ := hopened.resolvers m List.mem_cons_self
      cases hmodifier.symm.trans hr
    · next choice' hchoice' =>
      obtain ⟨b, hb, hid⟩ := Option.map_eq_some_iff.1 (Option.mem_toList.1 hown)
      obtain ⟨hstoredb, hparentb, -⟩ := (mem_contexts_iff hc).1 (mem_of_chosenContext? hb)
      obtain rfl := eq_of_stored hstoredb hstored hid
      obtain rfl := eq_of_stored hn hm (Option.some.inj (hparentb.symm.trans hparent))
      cases hmodifier.symm.trans hchoice'
      exact ⟨hsight, hb⟩
    · cases hown
  · rintro ⟨hsight, hchosen⟩
    refine ⟨m, hm, hsight, ?_⟩
    rw [ownLayers, hmodifier]
    simp [hchosen]

/-- No context of a modifier in sight lies in another one. -/
theorem InSight.eq_of_liesIn (hsight : s.InSight m) {b c : Node} (hb : b ∈ s.contexts m.id)
    (hmem : c ∈ s.contexts m.id) (h : s.LiesIn b c.id) : b = c := by
  obtain ⟨hstored, hparent, -⟩ := (mem_contexts_iff hc).1 hmem
  obtain ⟨above, hopened⟩ := hsight
  cases h with
  | here stored => exact Option.some.inj (stored.symm.trans hstored)
  | up stored parent lies =>
    cases hstored.symm.trans stored
    cases hparent.symm.trans parent
    have hcontext := ((mem_contexts_iff hc).1 hb).2.2
    rw [Node.isContext] at hcontext
    rcases List.mem_cons.1 ((Lineage.up hm hopened.lineage).mem_iff.2 lies) with rfl | habove
    · rw [hmodifier] at hcontext
      cases hcontext
    · obtain ⟨info, hr⟩ := hopened.resolvers b habove
      rw [hr] at hcontext
      cases hcontext

/-- The context that a node lies in is active, if its modifier is in sight. -/
theorem InSight.active_of_liesIn (hsight : s.InSight m) {c : Node} (hmem : c ∈ s.contexts m.id)
    {id : NodeId} (h : s.LiesIn c id) :
    Dict.get? (s.activeContexts (some id)) m.id = some c.id := by
  obtain ⟨hstored, hparent, hcontext⟩ := (mem_contexts_iff hc).1 hmem
  obtain ⟨above, hopened⟩ := hsight
  have hlineage : s.Lineage c.parent (m :: above) := hparent ▸ .up hm hopened.lineage
  obtain ⟨around, haround⟩ := hlineage.of_liesIn h
  rw [get?_activeContexts, haround.around_eq hc]
  cases hf : around.reverse.find? fun n => n.isContext && n.parent = some m.id with
  | none =>
    have hnot := List.find?_eq_none.1 hf c (List.mem_reverse.2 (haround.mem_iff.2 h))
    simp [hcontext, hparent] at hnot
  | some b =>
    have hlies := haround.mem_iff.1 (List.mem_reverse.1 (List.mem_of_find?_eq_some hf))
    have hstoredb := hlies.stored hc
    have hq := List.find?_some hf
    rw [Bool.and_eq_true, decide_eq_true_eq] at hq
    have hb : b ∈ s.contexts m.id := (mem_contexts_iff hc).2 ⟨hstoredb, hq.2, hq.1⟩
    have hsight : s.InSight m := ⟨above, hopened⟩
    rcases hlies.total h hstoredb hstored with hbc | hcb
    · rw [hsight.eq_of_liesIn hc hm hmodifier hb hmem hbc, Option.map_some]
    · rw [hsight.eq_of_liesIn hc hm hmodifier hmem hb hcb, Option.map_some]

end

/-- No context of a modifier is active around a node that lies in none. -/
theorem active_eq_none {modifier : NodeId} {from? : Option NodeId}
    (h : ∀ id ∈ from?, ∀ c ∈ s.contexts modifier, ¬ s.LiesIn c id) :
    Dict.get? (s.activeContexts from?) modifier = none := by
  cases from? with
  | none => rfl
  | some id =>
    rw [get?_activeContexts, Option.map_eq_none_iff, List.find?_eq_none]
    intro b hb hq
    rw [Bool.and_eq_true, decide_eq_true_eq] at hq
    have hlies := liesIn_of_mem_around (List.mem_reverse.1 hb)
    exact h id rfl b ((mem_contexts_iff hc).2 ⟨hlies.stored hc, hq.2, hq.1⟩) hlies

end

/-! ## What is found -/

/-- The nearest node around another one that is no group. -/
def container? (s : Store) (id : NodeId) : Option Node :=
  (s.ancestors id).find? fun a => !a.isGroup

section

variable (hc : s.Consistent)

include hc

/-- What names lead to from a parent hangs on it by the groups that they enter. -/
theorem hangsOn_of_tokenBelow? {top p : Option NodeId} {names : List String} {t : Node}
    (hp : ∃ above, s.UpTo top p above) (h : s.tokenBelow? p names = some t) : s.HangsOn top t := by
  obtain ⟨above, hup⟩ := hp
  have hchild : ∀ {q : Node → Bool} {n : Node}, (s.children p).find? q = some n →
      s.node? n.id = some n ∧ s.UpTo top n.parent above := by
    intro q n hn
    obtain ⟨hstored, hparent⟩ := hc.mem_children_iff.1 (List.mem_of_find?_eq_some hn)
    exact ⟨hstored, hparent ▸ hup⟩
  match names with
  | [] => cases h
  | [name] =>
    simp only [tokenBelow?] at h
    split at h
    · next htoken =>
      cases h
      exact ⟨(hchild htoken).1, above, (hchild htoken).2⟩
    · obtain ⟨g, hg, hown⟩ := Option.bind_eq_some_iff.1 h
      obtain ⟨hstored, hparent⟩ := hc.mem_children_iff.1 (List.mem_of_find?_eq_some hown)
      have hgroup := List.find?_some hg
      rw [Bool.and_eq_true] at hgroup
      exact ⟨hstored, g :: above, hparent ▸ .up (hchild hg).1 hgroup.1 (hchild hg).2⟩
  | name :: next :: names =>
    simp only [tokenBelow?] at h
    split at h
    · next g hg =>
      have hgroup := List.find?_some hg
      rw [Bool.and_eq_true] at hgroup
      exact hangsOn_of_tokenBelow? ⟨g :: above, .up (hchild hg).1 hgroup.1 (hchild hg).2⟩ h
    · cases h

/-- What hangs on a parent by groups has it for its container. -/
theorem HangsOn.eq_of_container? {top : Option NodeId} (htop : s.Outermost top) {t c : Node}
    (h : s.HangsOn top t) (ht : s.container? t.id = some c) : top = some c.id := by
  obtain ⟨hstored, above, hup⟩ := h
  have hgroups : (above.find? fun a => !a.isGroup) = none :=
    List.find?_eq_none.2 fun a ha => by simp [hup.isGroup_of_mem ha]
  rw [container?, ancestors, hstored] at ht
  dsimp only at ht
  rw [hup.chainUp (hup.length_le hc htop), List.find?_append, hgroups, Option.none_or] at ht
  cases hk : s.size - above.length with
  | zero =>
    rw [hk] at ht
    cases ht
  | succ k =>
    rw [hk] at ht
    cases top with
    | none => cases ht
    | some id =>
      cases hn : s.node? id with
      | none =>
        rw [chainUp, hn] at ht
        cases ht
      | some n =>
        rw [chainUp, hn] at ht
        simp only [List.find?_cons, htop id rfl n hn, Bool.not_false, Option.some.injEq] at ht
        rw [← ht, hc.id_of_node? hn]

/-- No group makes a layer. -/
theorem outermost_of_mem_layers {from? layer : Option NodeId} (h : layer ∈ s.layers from?) :
    s.Outermost layer := by
  cases layer with
  | none => exact s.outermost_none
  | some id =>
    obtain ⟨c, hstored, -, hown⟩ := (mem_layers_iff hc).1 h
    rw [ownLayers] at hown
    split at hown
    · next hset =>
      rw [List.mem_singleton.1 hown]
      exact outermost_of_stored hstored (by rw [Node.isGroup, Node.group?, hset]; rfl)
    · next hcontext =>
      rw [List.mem_singleton.1 hown]
      exact outermost_of_stored hstored (by rw [Node.isGroup, Node.group?, hcontext]; rfl)
    · obtain ⟨b, hb, rfl⟩ := Option.map_eq_some_iff.1 (Option.mem_toList.1 hown)
      obtain ⟨hstoredb, -, hcontext⟩ := (mem_contexts_iff hc).1 (mem_of_chosenContext? hb)
      obtain ⟨name, hname⟩ := Node.isContext_iff.1 hcontext
      exact outermost_of_stored hstoredb (by rw [Node.isGroup, Node.group?, hname]; rfl)
    · cases hown

/-- The container of a token that a path finds makes a layer that is seen. -/
theorem mem_layers_of_tokenAt? {dotted : String} {from? : Option NodeId} {t c : Node}
    (h : s.tokenAt? dotted from? = some t) (ht : s.container? t.id = some c) :
    some c.id ∈ s.layers from? := by
  rw [tokenAt?, lookup?] at h
  split at h
  · cases h
  · obtain ⟨layer, hlayer, hbelow⟩ := List.exists_of_findSome?_eq_some h
    rw [List.mem_reverse] at hlayer
    have hangs := hangsOn_of_tokenBelow? hc ⟨[], .here⟩ hbelow
    exact hangs.eq_of_container? hc (outermost_of_mem_layers hc hlayer) ht ▸ hlayer

end

/-- **Contexts are never mixed.** In every store that batches lead to, whoever
looks, a modifier shows one of its contexts at most, and one just if it is in
sight and has any. A node that lies in one of them sees no other, and no path
leads it to a token in another. Whoever lies in none of them sees the one that
the default names, or failing that the first. -/
theorem contexts_never_mixed {s : Store} (hs : s.Reachable) {m : Node} {choice : Modifier}
    (hm : s.node? m.id = some m) (hmodifier : m.content = .modifier choice)
    (from? : Option NodeId) :
    ((∀ c ∈ s.contexts m.id, ∀ c' ∈ s.contexts m.id, some c.id ∈ s.layers from? →
        some c'.id ∈ s.layers from? → c = c') ∧
      ((∃ c ∈ s.contexts m.id, some c.id ∈ s.layers from?) ↔
        s.InSight m ∧ s.contexts m.id ≠ [])) ∧
    (∀ id ∈ from?, ∀ c ∈ s.contexts m.id, s.LiesIn c id →
      (∀ c' ∈ s.contexts m.id, some c'.id ∈ s.layers from? → c' = c) ∧
      ∀ dotted t, s.tokenAt? dotted from? = some t →
        ∀ c' ∈ s.contexts m.id, s.container? t.id = some c' → c' = c) ∧
    ((∀ id ∈ from?, ∀ c ∈ s.contexts m.id, ¬ s.LiesIn c id) →
      ∀ c ∈ s.contexts m.id, some c.id ∈ s.layers from? → s.ShownByDefault m.id choice c) := by
  have hc := hs.consistent
  have hlayer : ∀ c ∈ s.contexts m.id, some c.id ∈ s.layers from? ↔
      s.InSight m ∧ s.chosenContext? (s.activeContexts from?) m.id choice = some c :=
    fun c hmem => mem_layers_context_iff hc hm hmodifier hmem
  have hinside : ∀ id ∈ from?, ∀ c ∈ s.contexts m.id, s.LiesIn c id →
      ∀ c' ∈ s.contexts m.id, some c'.id ∈ s.layers from? → c' = c := by
    rintro id rfl c hmem hlies c' hmem' hin
    obtain ⟨hsight, hchosen⟩ := (hlayer c' hmem').1 hin
    have hactive := hsight.active_of_liesIn hc hm hmodifier hmem hlies
    rw [chosenContext?_of_active hc hmem hactive] at hchosen
    exact (Option.some.inj hchosen).symm
  refine ⟨⟨fun c hmem c' hmem' hin hin' => ?_, ⟨?_, ?_⟩⟩, fun id hid c hmem hlies =>
    ⟨hinside id hid c hmem hlies, fun dotted t ht c' hmem' hcontainer => ?_⟩,
    fun hout c hmem hin => ?_⟩
  · exact Option.some.inj (((hlayer c hmem).1 hin).2.symm.trans ((hlayer c' hmem').1 hin').2)
  · rintro ⟨c, hmem, hin⟩
    exact ⟨((hlayer c hmem).1 hin).1, List.ne_nil_of_mem hmem⟩
  · rintro ⟨hsight, hne⟩
    obtain ⟨c, hchosen⟩ := exists_chosenContext? hne
    have hmem := mem_of_chosenContext? hchosen
    exact ⟨c, hmem, (hlayer c hmem).2 ⟨hsight, hchosen⟩⟩
  · exact hinside id hid c hmem hlies c' hmem' (mem_layers_of_tokenAt? hc ht hcontainer)
  · exact shownByDefault_of_chosenContext? (active_eq_none hc hout) ((hlayer c hmem).1 hin).2

/-- A theme within a resolver: a card in a group of the light context, and a background in both. -/
def cards : Store :=
  let token (id parent name : String) : Node :=
    ⟨⟨id⟩, some ⟨parent⟩, "a1", .token ⟨name, .none, some .number, .literal (.number (.integer 1))⟩⟩
  let context (name order : String) : Node := ⟨⟨name⟩, some ⟨"theme"⟩, order, .context name⟩
  ofNodes [⟨⟨"doc"⟩, none, "a0", .resolver ⟨"doc", none⟩⟩,
    ⟨⟨"theme"⟩, some ⟨"doc"⟩, "a0", .modifier ⟨"theme", none, none, some "dark"⟩⟩,
    context "light" "a0", ⟨⟨"ui"⟩, some ⟨"light"⟩, "a0", .group ⟨"ui", .none, none⟩⟩,
    token "card" "ui" "card", token "day" "light" "back",
    context "dark" "a1", token "night" "dark" "back"]

/-- The card sees the background of its own context, others that of the default. -/
theorem contexts_never_mixed_cards :
    let theme : Node := ⟨⟨"theme"⟩, some ⟨"doc"⟩, "a0", .modifier ⟨"theme", none, none, some "dark"⟩⟩
    let light : Node := ⟨⟨"light"⟩, some ⟨"theme"⟩, "a0", .context "light"⟩
    (cards.Reachable ∧ cards.node? theme.id = some theme ∧ light ∈ cards.contexts theme.id ∧
      cards.LiesIn light ⟨"card"⟩) ∧
    (∀ c ∈ cards.contexts theme.id, some c.id ∈ cards.layers (some ⟨"card"⟩) → c = light) ∧
    (∀ dotted t, cards.tokenAt? dotted (some ⟨"card"⟩) = some t →
      ∀ c ∈ cards.contexts theme.id, cards.container? t.id = some c → c = light) ∧
    (cards.tokenAt? "back" (some ⟨"card"⟩)).map Node.id = some ⟨"day"⟩ ∧
    (cards.tokenAt? "back" none).map Node.id = some ⟨"night"⟩ := by
  intro theme light
  have hs : cards.Reachable := reachable_ofNodes _
  have htheme : cards.node? theme.id = some theme := by decide +kernel
  have hlight : light ∈ cards.contexts theme.id := by decide +kernel
  have hlies : cards.LiesIn light ⟨"card"⟩ := liesIn_of_mem_around (by decide +kernel)
  obtain ⟨hlayers, hfound⟩ :=
    (contexts_never_mixed hs htheme rfl (some ⟨"card"⟩)).2.1 ⟨"card"⟩ rfl light hlight hlies
  exact ⟨⟨hs, htheme, hlight, hlies⟩, hlayers, hfound, by decide +kernel, by decide +kernel⟩

end DesignTokens.Store
