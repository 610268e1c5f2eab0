/-
What lookup looks at. Of a node it reads the id, the parent, the name and the
kind, and of a modifier its default as well: the `Outline` of the node. In
stores whose nodes and lists of children have the same outlines, in the same
order, every path leads to the token of the same id, and every node is called
by the same path.

Each function of a store that finds nodes is shown to find nodes of the same
outline, and each one that gives anything else to give the same. The functions
on lists they are made of do so for whatever is told of a node, so these come
first and know nothing of outlines.
-/
import Mathlib.Data.List.Forall2
import DesignTokens.Proofs.Resolution.Step

namespace DesignTokens

/-- What lookup tells nodes apart by; a modifier also by its default. -/
inductive Kind where
  | token
  | group
  | set
  | modifier (defaultContext : Option String)
  | context
  | resolver
  deriving DecidableEq, Repr

/-- The kind of a content. -/
def Content.kind : Content → Kind
  | .token _ => .token
  | .group _ => .group
  | .set _ => .set
  | .modifier m => .modifier m.defaultContext
  | .context _ => .context
  | .resolver _ => .resolver

/-- What lookup reads of a node. -/
structure Outline where
  id : NodeId
  parent : Option NodeId
  name : String
  kind : Kind
  deriving DecidableEq, Repr

namespace Node

/-- The outline of a node. -/
def outline (n : Node) : Outline := ⟨n.id, n.parent, n.name, n.content.kind⟩

theorem isToken_eq (n : Node) : n.isToken = decide (n.outline.kind = .token) := by
  obtain ⟨_, _, _, c⟩ := n
  cases c <;> rfl

theorem isGroup_eq (n : Node) : n.isGroup = decide (n.outline.kind = .group) := by
  obtain ⟨_, _, _, c⟩ := n
  cases c <;> rfl

theorem isContext_eq (n : Node) : n.isContext = decide (n.outline.kind = .context) := by
  obtain ⟨_, _, _, c⟩ := n
  cases c <;> rfl

variable {n m : Node} (h : n.outline = m.outline)

include h

theorem id_eq_of_outline : n.id = m.id := congrArg Outline.id h

theorem parent_eq_of_outline : n.parent = m.parent := congrArg Outline.parent h

theorem name_eq_of_outline : n.name = m.name := congrArg Outline.name h

theorem isToken_eq_of_outline : n.isToken = m.isToken := by rw [isToken_eq, h, isToken_eq]

theorem isGroup_eq_of_outline : n.isGroup = m.isGroup := by rw [isGroup_eq, h, isGroup_eq]

theorem isContext_eq_of_outline : n.isContext = m.isContext := by rw [isContext_eq, h, isContext_eq]

end Node

/-! ## Nodes of which the same is told -/

section

variable {α β : Type} {e : Node → β}

theorem cases_of_map_eq {a b : Option Node} (h : a.map e = b.map e) :
    (a = none ∧ b = none) ∨ ∃ n m, a = some n ∧ b = some m ∧ e n = e m := by
  cases a with
  | none =>
    rw [Option.map_none, eq_comm, Option.map_eq_none_iff] at h
    exact .inl ⟨rfl, h⟩
  | some n =>
    rw [Option.map_some, eq_comm, Option.map_eq_some_iff] at h
    obtain ⟨m, hm, hb⟩ := h
    exact .inr ⟨n, m, rfl, hm, hb.symm⟩

variable {l l' : List Node} (h : l.map e = l'.map e)

include h

theorem forall₂_of_map_eq : List.Forall₂ (fun n m => e n = e m) l l' := by
  rwa [← List.forall₂_eq_eq_eq, List.forall₂_map_left_iff, List.forall₂_map_right_iff] at h

theorem find?_of_map_eq {q : Node → Bool} (hq : ∀ n m, e n = e m → q n = q m) :
    (l.find? q).map e = (l'.find? q).map e := by
  induction forall₂_of_map_eq h with
  | nil => rfl
  | @cons n m _ _ hnm _ ih =>
    rw [List.find?_cons, List.find?_cons, hq n m hnm]
    split
    · exact congrArg some hnm
    · exact ih (List.cons.inj h).2

theorem filter_of_map_eq {q : Node → Bool} (hq : ∀ n m, e n = e m → q n = q m) :
    (l.filter q).map e = (l'.filter q).map e := by
  induction forall₂_of_map_eq h with
  | nil => rfl
  | @cons n m _ _ hnm _ ih =>
    rw [List.filter_cons, List.filter_cons, hq n m hnm]
    split
    · rw [List.map_cons, List.map_cons, hnm, ih (List.cons.inj h).2]
    · exact ih (List.cons.inj h).2

theorem takeWhile_of_map_eq {q : Node → Bool} (hq : ∀ n m, e n = e m → q n = q m) :
    (l.takeWhile q).map e = (l'.takeWhile q).map e := by
  induction forall₂_of_map_eq h with
  | nil => rfl
  | @cons n m _ _ hnm _ ih =>
    rw [List.takeWhile_cons, List.takeWhile_cons, hq n m hnm]
    split
    · rw [List.map_cons, List.map_cons, hnm, ih (List.cons.inj h).2]
    · rfl

theorem map_of_map_eq {f : Node → α} (hf : ∀ n m, e n = e m → f n = f m) : l.map f = l'.map f := by
  induction forall₂_of_map_eq h with
  | nil => rfl
  | @cons n m _ _ hnm _ ih => rw [List.map_cons, List.map_cons, hf n m hnm, ih (List.cons.inj h).2]

theorem foldl_of_map_eq {f : α → Node → α} (hf : ∀ a n m, e n = e m → f a n = f a m) (a : α) :
    l.foldl f a = l'.foldl f a := by
  induction forall₂_of_map_eq h generalizing a with
  | nil => rfl
  | @cons n m _ _ hnm _ ih =>
    rw [List.foldl_cons, List.foldl_cons, hf a n m hnm, ih (List.cons.inj h).2]

theorem findSome?_of_map_eq {f : Node → Option α} (hf : ∀ n m, e n = e m → f n = f m) :
    l.findSome? f = l'.findSome? f := by
  induction forall₂_of_map_eq h with
  | nil => rfl
  | @cons n m _ _ hnm _ ih =>
    rw [List.findSome?_cons, List.findSome?_cons, hf n m hnm, ih (List.cons.inj h).2]

theorem flatMap_of_map_eq {f g : Node → List α} (hfg : ∀ n m, e n = e m → f n = g m) :
    l.flatMap f = l'.flatMap g := by
  induction forall₂_of_map_eq h with
  | nil => rfl
  | @cons n m _ _ hnm _ ih =>
    rw [List.flatMap_cons, List.flatMap_cons, hfg n m hnm, ih (List.cons.inj h).2]

end

namespace Store

section

variable {β : Type} {e : Node → β} {s t : Store}
  (hnode : ∀ id, (s.node? id).map e = (t.node? id).map e)
  (hparent : ∀ n m, e n = e m → n.parent = m.parent)

include hnode hparent

theorem map_chainUp (steps : Nat) (from? : Option NodeId) :
    (s.chainUp steps from?).map e = (t.chainUp steps from?).map e := by
  induction steps generalizing from? with
  | zero => rfl
  | succ steps ih =>
    cases from? with
    | none => rfl
    | some id =>
      simp only [Store.chainUp]
      rcases cases_of_map_eq (hnode id) with ⟨hs, ht⟩ | ⟨n, m, hs, ht, he⟩
      · rw [hs, ht]
      · simp only [hs, ht, List.map_cons, he, hparent n m he, ih]

/-- The ancestors of a node are as alike as the nodes of the stores are. -/
theorem map_ancestors (hsize : s.size = t.size) (id : NodeId) :
    (s.ancestors id).map e = (t.ancestors id).map e := by
  simp only [Store.ancestors]
  rcases cases_of_map_eq (hnode id) with ⟨hs, ht⟩ | ⟨n, m, hs, ht, he⟩
  · rw [hs, ht]
  · simp only [hs, ht, hsize, hparent n m he, map_chainUp hnode hparent]

end

/-! ## What the nodes alone settle -/

theorem size_eq_of_ids {s t : Store} (h : s.ids = t.ids) : s.size = t.size := by
  have hl := congrArg List.length h
  rw [ids, ids, Dict.keys, Dict.keys, List.length_map, List.length_map] at hl
  exact hl

section

variable {s t : Store}
  (hnode : ∀ id, (s.node? id).map Node.outline = (t.node? id).map Node.outline)
  (hsize : s.size = t.size)

include hnode hsize

theorem ancestors_of_outline (id : NodeId) :
    (s.ancestors id).map Node.outline = (t.ancestors id).map Node.outline :=
  map_ancestors hnode (fun _ _ => Node.parent_eq_of_outline) hsize id

theorem groupNames_of_outline (id : NodeId) : s.groupNames id = t.groupNames id := by
  have hgroups := takeWhile_of_map_eq (ancestors_of_outline hnode hsize id)
    fun _ _ => Node.isGroup_eq_of_outline
  exact map_of_map_eq hgroups fun _ _ => Node.name_eq_of_outline

theorem path?_of_outline (id : NodeId) : s.path? id = t.path? id := by
  simp only [path?]
  rcases cases_of_map_eq (hnode id) with ⟨hs, ht⟩ | ⟨n, m, hs, ht, ho⟩
  · rw [hs, ht]
    rfl
  · rw [hs, ht, Option.map_some, Option.map_some, namesTo, namesTo, Node.id_eq_of_outline ho,
      Node.name_eq_of_outline ho, groupNames_of_outline hnode hsize]

/-- Every node is called by the same path. -/
theorem displayOf_of_outline (id : NodeId) : s.displayOf id = t.displayOf id := by
  rw [displayOf, displayOf, path?_of_outline hnode hsize]

/-- Every node lies in the same contexts. -/
theorem activeContexts_of_outline (from? : Option NodeId) :
    s.activeContexts from? = t.activeContexts from? := by
  cases from? with
  | none => rfl
  | some id =>
    have haround : ((s.node? id).toList ++ s.ancestors id).map Node.outline
        = ((t.node? id).toList ++ t.ancestors id).map Node.outline := by
      rw [List.map_append, List.map_append, ancestors_of_outline hnode hsize]
      rcases cases_of_map_eq (hnode id) with ⟨hs, ht⟩ | ⟨n, m, hs, ht, ho⟩
      · rw [hs, ht]
      · rw [hs, ht, Option.toList_some, Option.toList_some, List.map_singleton,
          List.map_singleton, ho]
    refine foldl_of_map_eq haround (fun active n m ho => ?_) []
    rw [Node.isContext_eq_of_outline ho, Node.parent_eq_of_outline ho, Node.id_eq_of_outline ho]

end

/-- The nodes of two stores have the same outlines, and so have their lists of children. -/
structure SameOutline (s t : Store) : Prop where
  ids : s.ids = t.ids
  node : ∀ id, (s.node? id).map Node.outline = (t.node? id).map Node.outline
  children : ∀ p, (s.children p).map Node.outline = (t.children p).map Node.outline

namespace SameOutline

variable {s t : Store} (h : s.SameOutline t)

include h

theorem size : s.size = t.size := size_eq_of_ids h.ids

theorem node_cases (id : NodeId) : (s.node? id = none ∧ t.node? id = none) ∨
    ∃ n m, s.node? id = some n ∧ t.node? id = some m ∧ n.outline = m.outline :=
  cases_of_map_eq (h.node id)

/-! ## Paths -/

theorem displayOf (id : NodeId) : s.displayOf id = t.displayOf id :=
  displayOf_of_outline h.node h.size id

/-! ## Layers -/

theorem ownToken? (group : NodeId) :
    (s.ownToken? group).map Node.outline = (t.ownToken? group).map Node.outline := by
  refine find?_of_map_eq (h.children _) fun n m ho => ?_
  rw [Node.isToken_eq_of_outline ho, Node.name_eq_of_outline ho]

theorem activeContexts (from? : Option NodeId) :
    s.activeContexts from? = t.activeContexts from? :=
  activeContexts_of_outline h.node h.size from?

theorem contexts (modifier : NodeId) :
    (s.contexts modifier).map Node.outline = (t.contexts modifier).map Node.outline :=
  filter_of_map_eq (h.children _) fun _ _ => Node.isContext_eq_of_outline

theorem chosenContext? (active : List (NodeId × NodeId)) (id : NodeId) {a b : Modifier}
    (hab : a.defaultContext = b.defaultContext) :
    (s.chosenContext? active id a).map Node.outline
      = (t.chosenContext? active id b).map Node.outline := by
  have hc := h.contexts id
  have haround : ∀ c : Option NodeId,
      (c.bind fun c => (s.contexts id).find? fun n => n.id = c).map Node.outline
        = (c.bind fun c => (t.contexts id).find? fun n => n.id = c).map Node.outline := by
    intro c
    cases c with
    | none => rfl
    | some c => exact find?_of_map_eq hc fun n m ho => by rw [Node.id_eq_of_outline ho]
  have hdefault : ∀ d : Option String,
      (d.bind fun name => (s.contexts id).find? fun n => n.name = name).map Node.outline
        = (d.bind fun name => (t.contexts id).find? fun n => n.name = name).map Node.outline := by
    intro d
    cases d with
    | none => rfl
    | some d => exact find?_of_map_eq hc fun n m ho => by rw [Node.name_eq_of_outline ho]
  have hhead : (s.contexts id).head?.map Node.outline = (t.contexts id).head?.map Node.outline := by
    rw [← List.head?_map, hc, List.head?_map]
  simp only [Store.chosenContext?, Option.map_or, haround, hdefault, hhead, hab]

/-- The induction is on the nodes that the walk has not entered. -/
theorem containerLayers (active : List (NodeId × NodeId)) (visited : List NodeId) {n m : Node}
    (ho : n.outline = m.outline) :
    s.containerLayers active visited n = t.containerLayers active visited m := by
  obtain ⟨id, parent, _, c⟩ := n
  obtain ⟨id', parent', _, d⟩ := m
  have hid : id = id' := Node.id_eq_of_outline ho
  have hkind : c.kind = d.kind := congrArg Outline.kind ho
  subst hid
  rw [Store.containerLayers, Store.containerLayers]
  cases c with
  | token | group | set | context => cases d <;> first | rfl | cases hkind
  | modifier a =>
    cases d with
    | modifier b =>
      have hc := h.chosenContext? active id (Kind.modifier.inj hkind)
      have hm := congrArg (Option.map Outline.id) hc
      rw [Option.map_map, Option.map_map] at hm
      exact congrArg Option.toList hm
    | _ => cases hkind
  | resolver =>
    cases d with
    | resolver =>
      simp only [← h.ids]
      split
      · next hv =>
        have hlt := unvisited_cons_lt hv.1 hv.2
        exact flatMap_of_map_eq (h.children _) fun _ _ => containerLayers active _
      · rfl
    | _ => cases hkind
termination_by s.unvisited visited

theorem layers (from? : Option NodeId) : s.layers from? = t.layers from? := by
  have hroots : (s.children none).flatMap (s.containerLayers (s.activeContexts from?) [])
      = (t.children none).flatMap (t.containerLayers (t.activeContexts from?) []) := by
    rw [h.activeContexts]
    exact flatMap_of_map_eq (h.children none) fun _ _ => h.containerLayers _ []
  rw [Store.layers, Store.layers, hroots]

/-! ## Lookup -/

theorem tokenBelow? (parent : Option NodeId) (names : List String) :
    (s.tokenBelow? parent names).map Node.outline
      = (t.tokenBelow? parent names).map Node.outline := by
  have htoken : ∀ name,
      ((s.children parent).find? fun n => n.isToken && n.name = name).map Node.outline
        = ((t.children parent).find? fun n => n.isToken && n.name = name).map Node.outline := by
    intro name
    refine find?_of_map_eq (h.children parent) fun n m ho => ?_
    rw [Node.isToken_eq_of_outline ho, Node.name_eq_of_outline ho]
  have hgroup : ∀ name,
      ((s.children parent).find? fun n => n.isGroup && n.name = name).map Node.outline
        = ((t.children parent).find? fun n => n.isGroup && n.name = name).map Node.outline := by
    intro name
    refine find?_of_map_eq (h.children parent) fun n m ho => ?_
    rw [Node.isGroup_eq_of_outline ho, Node.name_eq_of_outline ho]
  match names with
  | [] => rfl
  | [name] =>
    simp only [Store.tokenBelow?]
    rcases cases_of_map_eq (htoken name) with ⟨hs, ht⟩ | ⟨n, m, hs, ht, ho⟩
    · rw [hs, ht]
      rcases cases_of_map_eq (hgroup name) with ⟨hs, ht⟩ | ⟨n, m, hs, ht, ho⟩
      · rw [hs, ht]
        rfl
      · rw [hs, ht, Option.bind_some, Option.bind_some, h.ownToken?, Node.id_eq_of_outline ho]
    · rw [hs, ht, Option.map_some, Option.map_some, ho]
  | name :: next :: names =>
    simp only [Store.tokenBelow?]
    rcases cases_of_map_eq (hgroup name) with ⟨hs, ht⟩ | ⟨n, m, hs, ht, ho⟩
    · rw [hs, ht]
    · rw [hs, ht]
      simp only [tokenBelow? _ (next :: names), Node.id_eq_of_outline ho]

theorem lookup? (from? : Option NodeId) (names : List String) :
    (s.lookup? from? names).map Node.outline = (t.lookup? from? names).map Node.outline := by
  simp only [Store.lookup?, h.layers]
  split
  · rfl
  · induction (t.layers from?).reverse with
    | nil => rfl
    | cons layer layers ih =>
      rw [List.findSome?_cons, List.findSome?_cons]
      rcases cases_of_map_eq (h.tokenBelow? layer names) with ⟨hs, ht⟩ | ⟨n, m, hs, ht, ho⟩
      · rw [hs, ht]
        exact ih
      · rw [hs, ht, Option.map_some, Option.map_some, ho]

theorem map_id_target (ref : Alias) (holder : NodeId) :
    (s.target ref holder).map Node.id = (t.target ref holder).map Node.id := by
  cases ref with
  | path dotted =>
    simp only [Store.target, tokenAt?]
    rcases cases_of_map_eq (h.lookup? (some holder) (Alias.segmentsOf dotted)) with
      ⟨hs, ht⟩ | ⟨n, m, hs, ht, ho⟩
    · rw [hs, ht]
    · rw [hs, ht]
      exact congrArg Except.ok (Node.id_eq_of_outline ho)
  | id id =>
    simp only [Store.target]
    rcases h.node_cases id with ⟨hs, ht⟩ | ⟨n, m, hs, ht, ho⟩
    · rw [hs, ht]
    · simp only [hs, ht, Node.isToken_eq_of_outline ho, Node.isGroup_eq_of_outline ho]
      by_cases htok : m.isToken
      · simp only [htok, if_true]
        exact congrArg Except.ok (Node.id_eq_of_outline ho)
      · by_cases hgrp : m.isGroup
        · simp only [htok, hgrp, if_true]
          rcases cases_of_map_eq (h.ownToken? id) with ⟨hs, ht⟩ | ⟨n, m, hs, ht, ho⟩
          · simp only [hs, ht]
            rfl
          · simp only [hs, ht]
            exact congrArg Except.ok (Node.id_eq_of_outline ho)
        · simp only [htok, hgrp]
          rfl

/-- An alias has no target in either store, or targets of the same id. -/
theorem target_cases (ref : Alias) (holder : NodeId) :
    (∃ e, s.target ref holder = .error e ∧ t.target ref holder = .error e) ∨
      ∃ n m, s.target ref holder = .ok n ∧ t.target ref holder = .ok m ∧ n.id = m.id := by
  have hm := h.map_id_target ref holder
  cases hs : s.target ref holder with
  | error e =>
    cases ht : t.target ref holder with
    | error e' =>
      rw [hs, ht] at hm
      cases hm
      exact .inl ⟨e, rfl, rfl⟩
    | ok m =>
      rw [hs, ht] at hm
      cases hm
  | ok n =>
    cases ht : t.target ref holder with
    | error e =>
      rw [hs, ht] at hm
      cases hm
    | ok m =>
      rw [hs, ht] at hm
      exact .inr ⟨n, m, rfl, rfl, Except.ok.inj hm⟩

/-! ## Tokens -/

theorem tokenNode_of_error {id : NodeId} {e : ResolutionError} (he : s.tokenNode id = .error e) :
    t.tokenNode id = .error e := by
  simp only [tokenNode] at he ⊢
  rcases h.node_cases id with ⟨hs, ht⟩ | ⟨n, m, hs, ht, ho⟩
  · rwa [hs, ← ht] at he
  · have htok : n.token?.isSome = m.token?.isSome := Node.isToken_eq_of_outline ho
    simp only [hs] at he
    simp only [ht]
    cases hn : n.token? with
    | some u =>
      simp only [hn] at he
      cases he
    | none =>
      rw [hn, Option.isSome_none, eq_comm, Option.isSome_eq_false_iff, Option.isNone_iff_eq_none]
        at htok
      simp only [hn] at he
      simp only [htok]
      exact he

theorem exists_token {id : NodeId} {n : Node} {u : Token} (hn : s.node? id = some n)
    (hu : n.content = .token u) : ∃ m v, t.node? id = some m ∧ m.content = .token v := by
  rcases h.node_cases id with ⟨hs, -⟩ | ⟨n', m, hs, ht, ho⟩
  · rw [hs] at hn
    cases hn
  · rw [hs] at hn
    cases hn
    have htok := Node.isToken_eq_of_outline ho
    rw [Node.isToken, token?_eq_some_iff.2 hu, Option.isSome_some, eq_comm, Node.isToken,
      Option.isSome_iff_exists] at htok
    obtain ⟨v, hv⟩ := htok
    exact ⟨m, v, ht, token?_eq_some_iff.1 hv⟩

/-! ## Texts -/

theorem checkType (id : NodeId) (r : Resolved) : s.checkType id r = t.checkType id r := by
  rw [Store.checkType, Store.checkType, h.displayOf]

theorem fieldContent (holder target : NodeId) (k : FieldKind) (ref : Alias) (r : Resolved) :
    s.fieldContent holder target k ref r = t.fieldContent holder target k ref r := by
  rw [Store.fieldContent, Store.fieldContent, h.displayOf, h.displayOf]

theorem circle (chain : List NodeId) (id : NodeId) : s.circle chain id = t.circle chain id := by
  rw [Store.circle, Store.circle, funext h.displayOf]

end SameOutline

end Store

end DesignTokens
