/-
The order of layers. Sets and modifiers that are given other keys lie in other
layers on top of each other, and the last layer that defines a path has it. So
where two layers define a path, their order tells which token is meant; where
one alone does, it tells nothing (`lookup?_eq`).

Nodes that lie in layers see the same ones in either order, for contexts are
chosen by what lies around a node, by defaults and by the order of contexts. So
if no token holds a path that two of its layers define, every token resolves to
the same result, through any chain of references (`resolve_reordered`).
-/
import DesignTokens.Proofs.List
import DesignTokens.Proofs.Resolution.Outline
import DesignTokens.Proofs.Resolution.SameBelow
import DesignTokens.Proofs.Resolution.Tracks
import DesignTokens.Proofs.Store.OfNodes
import DesignTokens.Proofs.Store.Rekeyed

namespace DesignTokens

namespace Node

theorem outline_eq_of_keyless {n m : Node} (h : n.keyless = m.keyless) : n.outline = m.outline := by
  rw [outline, outline, name, name, id_eq_of_keyless h, parent_eq_of_keyless h,
    content_eq_of_keyless h]

end Node

namespace Store

/-- Whether a layer has a token to which names lead. No name may be empty. -/
def Defines (s : Store) (names : List String) (layer : Option NodeId) : Prop :=
  (names.isEmpty || names.any String.isEmpty) = false ∧ (s.tokenBelow? layer names).isSome

instance (s : Store) (names : List String) (layer : Option NodeId) :
    Decidable (s.Defines names layer) := inferInstanceAs (Decidable (_ ∧ _))

/-- No two of the layers that a node sees define the names. -/
def DefinesOnce (s : Store) (names : List String) (from? : Option NodeId) : Prop :=
  ∀ a ∈ s.layers from?, ∀ b ∈ s.layers from?, s.Defines names a → s.Defines names b → a = b

instance (s : Store) (names : List String) (from? : Option NodeId) :
    Decidable (s.DefinesOnce names from?) :=
  inferInstanceAs (Decidable (∀ a ∈ s.layers from?, ∀ b ∈ s.layers from?, _ → _ → a = b))

/-- No path that a token holds is defined by two of the layers that the token sees. -/
def Unambiguous (s : Store) : Prop :=
  ∀ n ∈ s.nodes, ∀ t ∈ n.token?, ∀ ref ∈ t.value.aliases, ∀ names ∈ ref.segments?,
    s.DefinesOnce names (some n.id)

instance (s : Store) : Decidable s.Unambiguous :=
  inferInstanceAs (Decidable (∀ n ∈ s.nodes, ∀ t ∈ n.token?, ∀ ref ∈ t.value.aliases,
    ∀ names ∈ ref.segments?, s.DefinesOnce names (some n.id)))

namespace Rekeyed

variable {s t : Store} (h : s.Rekeyed t)

include h

theorem outline (id : NodeId) : (s.node? id).map Node.outline = (t.node? id).map Node.outline := by
  rcases cases_of_map_eq (h.node id) with ⟨hs, ht⟩ | ⟨n, m, hs, ht, hk⟩
  · rw [hs, ht]
  · rw [hs, ht, Option.map_some, Option.map_some, Node.outline_eq_of_keyless hk]

theorem displayOf (id : NodeId) : s.displayOf id = t.displayOf id :=
  displayOf_of_outline h.outline (size_eq_of_ids h.ids) id

theorem ownType (n : Node) : s.ownType n = t.ownType n := by
  have hancestors := map_ancestors h.node (fun _ _ => Node.parent_eq_of_keyless)
    (size_eq_of_ids h.ids) n.id
  have hgroups := filter_of_map_eq hancestors fun a b hk =>
    Node.isGroup_eq_of_outline (Node.outline_eq_of_keyless hk)
  rw [Store.ownType, Store.ownType, findSome?_of_map_eq hgroups fun a b hk => by
    rw [Node.content_eq_of_keyless hk]]

theorem tokenNode_of_error {id : NodeId} {e : ResolutionError} (he : s.tokenNode id = .error e) :
    t.tokenNode id = .error e := by
  simp only [tokenNode] at he ⊢
  rcases cases_of_map_eq (h.node id) with ⟨hs, ht⟩ | ⟨n, m, hs, ht, hk⟩
  · rwa [hs, ← ht] at he
  · have htoken : n.token? = m.token? := by
      rw [Node.token?, Node.token?, Node.content_eq_of_keyless hk]
    simp only [hs, htoken] at he
    simp only [ht]
    cases hm : m.token? with
    | some u =>
      rw [hm] at he
      cases he
    | none =>
      rw [hm] at he
      exact he

variable (hs : s.Consistent) (ht : t.Consistent)

include hs ht

/-! ## Layers -/

/-- Tokens and groups are no items, and so they are found at the root level as before. -/
theorem sameBelow : s.SameBelow t where
  ids id := by rw [h.ids]
  children := h.children_some hs ht
  token? _ := h.find?_children hs ht
    (fun n hn => Node.isRootItem_of_isToken (Bool.and_eq_true_iff.1 hn).1) _
  group? _ := h.find?_children hs ht
    (fun n hn => Node.isRootItem_of_isGroup (Bool.and_eq_true_iff.1 hn).1) _

omit h hs ht in
theorem containerLayers_keyless (active : List (NodeId × NodeId)) (visited : List NodeId)
    (n : Node) : s.containerLayers active visited n.keyless = s.containerLayers active visited n := by
  rw [Store.containerLayers, Store.containerLayers, Node.content_keyless, Node.id_keyless]

/-- Every node sees the same layers, in some order. -/
theorem perm_layers (from? : Option NodeId) : (s.layers from?).Perm (t.layers from?) := by
  have hkeyless : ∀ (s : Store) active, (s.children none).flatMap (s.containerLayers active []) =
      ((s.children none).map Node.keyless).flatMap (s.containerLayers active []) := by
    intro s active
    rw [List.flatMap_map]
    exact List.flatMap_congr fun n _ => (containerLayers_keyless active [] n).symm
  rw [layers, layers, hkeyless, hkeyless, activeContexts_of_outline h.outline (size_eq_of_ids h.ids),
    funext ((h.sameBelow hs ht).containerLayers _ [])]
  exact (((h.perm_children hs ht none).flatMap_right _).map some).cons none

/-! ## Lookup -/

/-- Names that at most one layer defines lead to the same token. -/
theorem lookup?_eq {from? : Option NodeId} {names : List String}
    (hu : s.DefinesOnce names from?) : s.lookup? from? names = t.lookup? from? names := by
  rw [lookup?, lookup?]
  cases hempty : names.isEmpty || names.any String.isEmpty with
  | true => rfl
  | false =>
    have hperm : (s.layers from?).reverse.Perm (t.layers from?).reverse :=
      (List.reverse_perm _).trans ((h.perm_layers hs ht from?).trans (List.reverse_perm _).symm)
    have hbelow : (fun layer => t.tokenBelow? layer names) = fun layer => s.tokenBelow? layer names :=
      funext fun layer => ((h.sameBelow hs ht).tokenBelow? layer names).symm
    simp only [Bool.false_eq_true, if_false, hbelow]
    refine findSome?_eq_of_perm hperm fun a ha b hb hfa hfb => ?_
    exact hu a (List.mem_reverse.1 ha) b (List.mem_reverse.1 hb) ⟨hempty, hfa⟩ ⟨hempty, hfb⟩

/-- An id leads to the same token. -/
theorem target_id (id holder : NodeId) : s.target (.id id) holder = t.target (.id id) holder := by
  simp only [target]
  rcases cases_of_map_eq (h.node id) with ⟨hs', ht'⟩ | ⟨n, m, hs', ht', hk⟩
  · rw [hs', ht']
  · have ho := Node.outline_eq_of_keyless hk
    simp only [hs', ht', ← Node.isToken_eq_of_outline ho, ← Node.isGroup_eq_of_outline ho,
      (h.sameBelow hs ht).ownToken?]
    by_cases htoken : n.isToken
    · rw [Node.eq_of_keyless hk (Node.isRootItem_of_isToken htoken)]
    · simp only [htoken]
      rfl

theorem target (hu : s.Unambiguous) {n : Node} {u : Token} (hn : s.node? n.id = some n)
    (htoken : n.content = .token u) {ref : Alias} (href : ref ∈ u.value.aliases) :
    s.target ref n.id = t.target ref n.id := by
  cases ref with
  | id id => exact h.target_id hs ht id n.id
  | path dotted =>
    have hmem : n ∈ s.nodes := (hs.node?_eq_some_iff.1 hn).1
    have hlayers := hu n hmem u (token?_eq_some_iff.2 htoken) _ href (Alias.segmentsOf dotted) rfl
    simp only [Store.target, tokenAt?, h.lookup?_eq hs ht hlayers]

/-! ## Resolution -/

theorem tracks (hu : s.Unambiguous) : Tracks (fun _ => True) id s t where
  injective _ _ _ _ he := he
  displayOf id _ := (h.displayOf id).symm
  error _ _ _ he := h.tokenNode_of_error he
  token id n u _ hn htoken := by
    have hitem := Node.isRootItem_of_isToken (by
      rw [Node.isToken, token?_eq_some_iff.2 htoken, Option.isSome_some])
    exact ⟨n, u, h.node?_eq_some hn hitem, htoken, rfl, (h.ownType n).symm⟩
  target id n u _ hn htoken ref href := by
    obtain rfl := hs.id_of_node? hn
    have htarget := h.target hs ht hu hn htoken href
    cases hm : s.target ref n.id with
    | error e => exact .inl ⟨e, rfl, htarget ▸ hm⟩
    | ok m => exact .inr ⟨m, m, rfl, htarget ▸ hm, rfl, trivial⟩

end Rekeyed

/--
**The order of sets does not matter where they do not overlap.** Let batches
give other keys to sets and modifiers at the root of a store, in which no token
holds a path that two of the layers in its sight define. Then every token
resolves as before, to the same value or the same error, and has the same type.
-/
theorem resolve_reordered {s t : Store} (hs : s.Reachable) (hu : s.Unambiguous)
    (h : s.Reorders t) (id : NodeId) : t.resolve id = s.resolve id ∧ t.typeOf id = s.typeOf id := by
  have hc := hs.consistent
  have htracks := (rekeyed_of_reorders h).tracks hc (h.consistent hc) hu
  exact ⟨htracks.resolve trivial, htracks.typeOf trivial⟩

/-- Two sets and a theme: an alias from the first set to the second, one from there to the theme,
and a circle through both sets. -/
def themed : Store :=
  let token (id parent : String) (value : TokenValue) : Node :=
    ⟨⟨id⟩, some ⟨parent⟩, "a0", .token ⟨id, .none, some .number, value⟩⟩
  ofNodes [⟨⟨"theme"⟩, none, "a0", .modifier ⟨"theme", none, none, some "dark"⟩⟩,
    ⟨⟨"light"⟩, some ⟨"theme"⟩, "a0", .context "light"⟩,
    token "day" "light" (.literal (.number (.integer 1))),
    ⟨⟨"dark"⟩, some ⟨"theme"⟩, "a1", .context "dark"⟩,
    token "night" "dark" (.literal (.number (.integer 2))),
    ⟨⟨"front"⟩, none, "a1", .set ⟨"front", none, none⟩⟩,
    token "level" "front" (.aliasTo (.path "depth")), token "spin" "front" (.aliasTo (.path "turn")),
    ⟨⟨"back"⟩, none, "a2", .set ⟨"back", none, none⟩⟩,
    token "depth" "back" (.aliasTo (.path "night")), token "turn" "back" (.aliasTo (.path "spin"))]

/-- The sets change places, and the theme goes behind them. -/
theorem resolve_reordered_themed :
    let front : Node := ⟨⟨"front"⟩, none, "a3", .set ⟨"front", none, none⟩⟩
    let theme : Node := ⟨⟨"theme"⟩, none, "a4", .modifier ⟨"theme", none, none, some "dark"⟩⟩
    let turned := themed.commit (Batch.empty.extend [front, theme])
    themed.Reachable ∧ themed.Unambiguous ∧ themed.Reorders turned ∧
      (themed.children none).map Node.id = [⟨"theme"⟩, ⟨"front"⟩, ⟨"back"⟩] ∧
      (turned.children none).map Node.id = [⟨"back"⟩, ⟨"front"⟩, ⟨"theme"⟩] ∧
      turned.resolve ⟨"level"⟩ = .ok ⟨.number, .number (.integer 2)⟩ ∧
      turned.resolve ⟨"spin"⟩ = .error (.circle ["spin", "turn", "spin"]) := by
  intro front theme turned
  have hreachable : themed.Reachable := reachable_ofNodes _
  have hu : themed.Unambiguous := by decide +kernel
  have hfront : themed.Rekeys front :=
    ⟨front.withOrder "a1", "a3", by decide +kernel, rfl, rfl⟩
  have htheme : themed.Rekeys theme :=
    ⟨theme.withOrder "a0", "a4", by decide +kernel, rfl, rfl⟩
  have hrekeys : ∀ n ∈ [front, theme], themed.Rekeys n := by simp [hfront, htheme]
  have h : themed.Reorders turned := .batch .refl hrekeys
  refine ⟨hreachable, hu, h, by decide +kernel, by decide +kernel, ?_, ?_⟩
  · rw [(resolve_reordered hreachable hu h ⟨"level"⟩).1]
    decide +kernel
  · rw [(resolve_reordered hreachable hu h ⟨"spin"⟩).1]
    decide +kernel

end Store

end DesignTokens
