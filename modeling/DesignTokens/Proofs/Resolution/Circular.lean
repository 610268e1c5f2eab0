/-
The check before an alias is written, and what is read once it is.

The check is a search: it finds `source` just if references lead to it from
what waits (`comesUpon_eq_true_iff`). The nodes it has visited are closed but
for those that wait, so a path that starts among them leaves them through one
that waits.

Writing the alias changes the references of `source` alone. Where the check
finds `source` from the target, the path up to there is still a path and the
new alias closes it. Where it does not, nothing that the target is resolved
from has changed, and `source` waits on the chain in vain.

A group may stand for its own token as the target of an alias. The search takes
it as it is and ends there, whatever its token refers to.
-/
import DesignTokens.Proofs.Resolution.Agreement
import DesignTokens.Proofs.Resolution.Circle
import DesignTokens.Proofs.Resolution.Target
import DesignTokens.Proofs.Store.OfNodes
import DesignTokens.Proofs.Store.Replace
import DesignTokens.Resolution.Circular

namespace DesignTokens

/-- The node with another value, if it is a token. -/
def Node.withValue (n : Node) (v : TokenValue) : Node :=
  match n.content with
  | .token t => { n with content := .token { t with value := v } }
  | _ => n

namespace Node

variable (n : Node) (v : TokenValue)

@[simp] theorem id_withValue : (n.withValue v).id = n.id := by
  obtain ⟨_, _, _, c⟩ := n
  cases c <;> rfl

@[simp] theorem order_withValue : (n.withValue v).order = n.order := by
  obtain ⟨_, _, _, c⟩ := n
  cases c <;> rfl

@[simp] theorem outline_withValue : (n.withValue v).outline = n.outline := by
  obtain ⟨_, _, _, c⟩ := n
  cases c <;> rfl

@[simp] theorem declaredType_withValue :
    (n.withValue v).content.declaredType = n.content.declaredType := by
  obtain ⟨_, _, _, c⟩ := n
  cases c <;> rfl

theorem content_withValue {n : Node} {t : Token} (ht : n.content = .token t) (v : TokenValue) :
    (n.withValue v).content = .token { t with value := v } := by
  rw [withValue, ht]

end Node

namespace Store

variable {s : Store}

/-! ## The search -/

theorem mem_targets_iff (hs : s.Consistent) {a b : NodeId} {n : Node} (hn : s.node? a = some n) :
    b ∈ s.targets n ↔ s.RefersTo a b := by
  have hid : n.id = a := hs.id_of_node? hn
  constructor
  · intro hb
    unfold targets at hb
    split at hb
    · cases hb
    · next t ht =>
      obtain ⟨ref, href, hfound⟩ := List.mem_filterMap.1 hb
      cases hm : s.target ref n.id with
      | error e => simp [hm] at hfound
      | ok m =>
        rw [hm, Option.some.injEq] at hfound
        exact ⟨n, t, ref, m, hn, token?_eq_some_iff.1 ht, href, hid ▸ hm, hfound⟩
  · rintro ⟨n', t, ref, m, hn', ht, href, hm, rfl⟩
    cases hn.symm.trans hn'
    simp only [targets, token?_eq_some_iff.2 ht]
    refine List.mem_filterMap.2 ⟨ref, href, ?_⟩
    rw [hid, hm]

theorem not_refersTo_of_missing {a b : NodeId} (ha : s.node? a = none) : ¬ s.RefersTo a b := by
  rintro ⟨n, _, _, _, hn, _⟩
  cases ha.symm.trans hn

theorem exists_refersTo_of_transGen {a c : NodeId} (h : Relation.TransGen s.RefersTo a c) :
    ∃ b, s.RefersTo a b := by
  cases h using Relation.TransGen.head_induction_on with
  | single hac => exact ⟨c, hac⟩
  | head hab _ _ => exact ⟨_, hab⟩

/-- What visited nodes refer to is not `source`; it has been visited, or waits, or is missing. -/
def Searched (s : Store) (source : NodeId) (visited waiting : List NodeId) : Prop :=
  ∀ a ∈ visited, ∀ b, s.RefersTo a b →
    b ≠ source ∧ (b ∈ visited ∨ b ∈ waiting ∨ s.node? b = none)

/-- A path from a visited node to `source` goes on from one that waits. -/
theorem Searched.exists_waiting {source : NodeId} {visited waiting : List NodeId}
    (h : s.Searched source visited waiting) {a : NodeId} (ha : a ∈ visited)
    (hpath : Relation.TransGen s.RefersTo a source) :
    ∃ w ∈ waiting, Relation.TransGen s.RefersTo w source := by
  induction hpath using Relation.TransGen.head_induction_on with
  | single hac => exact absurd rfl (h _ ha _ hac).1
  | @head a b hab hrest ih =>
    rcases (h a ha b hab).2 with hb | hb | hb
    · exact ih hb
    · exact ⟨b, hb, hrest⟩
    · obtain ⟨c, hbc⟩ := exists_refersTo_of_transGen hrest
      exact absurd hbc (not_refersTo_of_missing hb)

/-- A node that has been visited, or is missing, is passed over. -/
theorem Searched.of_cons {source id : NodeId} {visited waiting : List NodeId}
    (h : s.Searched source visited (id :: waiting)) (hid : id ∈ visited ∨ s.node? id = none) :
    s.Searched source visited waiting := by
  intro a ha b hab
  obtain ⟨hne, hb⟩ := h a ha b hab
  refine ⟨hne, ?_⟩
  rcases hb with hb | hb | hb
  · exact .inl hb
  · rcases List.mem_cons.1 hb with rfl | hb
    · exact hid.imp_right .inr
    · exact .inr (.inl hb)
  · exact .inr (.inr hb)

theorem Searched.exists_path_cons_iff {source id : NodeId} {visited waiting : List NodeId}
    (h : s.Searched source visited waiting) (hid : id ∈ visited ∨ s.node? id = none) :
    (∃ w ∈ id :: waiting, Relation.TransGen s.RefersTo w source) ↔
      ∃ w ∈ waiting, Relation.TransGen s.RefersTo w source := by
  constructor
  · rintro ⟨w, hw, hpath⟩
    rcases List.mem_cons.1 hw with rfl | hw
    · rcases hid with hv | hmissing
      · exact h.exists_waiting hv hpath
      · obtain ⟨b, hb⟩ := exists_refersTo_of_transGen hpath
        exact absurd hb (not_refersTo_of_missing hmissing)
    · exact ⟨w, hw, hpath⟩
  · rintro ⟨w, hw, hpath⟩
    exact ⟨w, List.mem_cons_of_mem _ hw, hpath⟩

/-- A node that is visited now sends the search to what it refers to. -/
theorem Searched.visit {source id : NodeId} {visited waiting targets : List NodeId}
    (h : s.Searched source visited (id :: waiting)) (htargets : ∀ b, b ∈ targets ↔ s.RefersTo id b)
    (hsource : source ∉ targets) : s.Searched source (id :: visited) (targets ++ waiting) := by
  intro a ha b hab
  rcases List.mem_cons.1 ha with rfl | ha
  · have hb := (htargets b).2 hab
    exact ⟨fun he => hsource (he ▸ hb), .inr (.inl (List.mem_append_left _ hb))⟩
  · obtain ⟨hne, hb⟩ := h a ha b hab
    refine ⟨hne, ?_⟩
    rcases hb with hb | hb | hb
    · exact .inl (List.mem_cons_of_mem _ hb)
    · rcases List.mem_cons.1 hb with rfl | hb
      · exact .inl (List.mem_cons_self ..)
      · exact .inr (.inl (List.mem_append_right _ hb))
    · exact .inr (.inr hb)

section

variable {source id : NodeId} {visited waiting : List NodeId}

theorem comesUpon_of_passed (hid : id ∈ visited ∨ s.node? id = none) :
    s.comesUpon source visited (id :: waiting) = s.comesUpon source visited waiting := by
  rw [comesUpon]
  split
  · rfl
  · next hv =>
    split
    · rfl
    · next hn => cases (hid.resolve_left hv).symm.trans hn

theorem comesUpon_of_stored {n : Node} (hv : id ∉ visited) (hn : s.node? id = some n) :
    s.comesUpon source visited (id :: waiting) =
      (decide (source ∈ s.targets n) ||
        s.comesUpon source (id :: visited) (s.targets n ++ waiting)) := by
  rw [comesUpon, dif_neg hv]
  split
  · next hmissing => cases hmissing.symm.trans hn
  · next n' hn' =>
    cases hn.symm.trans hn'
    by_cases hsource : source ∈ s.targets n <;> simp [hsource]

end

/-- The search comes upon `source` just if a path of references leads there from what waits. -/
theorem comesUpon_eq_true_iff (hs : s.Consistent) {source : NodeId} (visited waiting : List NodeId)
    (h : s.Searched source visited waiting) :
    s.comesUpon source visited waiting = true ↔
      ∃ w ∈ waiting, Relation.TransGen s.RefersTo w source := by
  induction visited, waiting using comesUpon.induct s source with
  | case1 visited => simp [comesUpon]
  | case2 visited id waiting hv ih =>
    have hrest := h.of_cons (.inl hv)
    rw [comesUpon_of_passed (.inl hv), ih hrest, hrest.exists_path_cons_iff (.inl hv)]
  | case3 visited id waiting hv hmissing ih =>
    have hrest := h.of_cons (.inr hmissing)
    rw [comesUpon_of_passed (.inr hmissing), ih hrest, hrest.exists_path_cons_iff (.inr hmissing)]
  | case4 visited id waiting hv n hn targets hsource =>
    have hpath : s.RefersTo id source := (mem_targets_iff hs hn).1 hsource
    rw [comesUpon_of_stored hv hn, decide_eq_true hsource, Bool.true_or]
    exact iff_of_true rfl ⟨id, List.mem_cons_self .., .single hpath⟩
  | case5 visited id waiting hv n hn targets hsource ih =>
    have hrest := h.visit (fun _ => mem_targets_iff hs hn) hsource
    rw [comesUpon_of_stored hv hn, decide_eq_false hsource, Bool.false_or, ih hrest]
    constructor
    · rintro ⟨w, hw, hpath⟩
      rcases List.mem_append.1 hw with hw | hw
      · exact ⟨id, List.mem_cons_self .., .head ((mem_targets_iff hs hn).1 hw) hpath⟩
      · exact ⟨w, List.mem_cons_of_mem _ hw, hpath⟩
    · rintro ⟨w, hw, hpath⟩
      rcases List.mem_cons.1 hw with rfl | hw
      · exact hrest.exists_waiting (List.mem_cons_self ..) hpath
      · exact ⟨w, List.mem_append_right _ hw, hpath⟩

/-- The check is positive just if references lead from the target to the source. -/
theorem closesCircle_eq_true_iff (hs : s.Consistent) {source target : NodeId} :
    s.closesCircle source target = true ↔ Relation.ReflTransGen s.RefersTo target source := by
  have hstart : s.Searched source [] [target] := fun _ ha => nomatch ha
  rw [closesCircle, Bool.or_eq_true, decide_eq_true_eq, comesUpon_eq_true_iff hs [] [target] hstart,
    Relation.reflTransGen_iff_eq_or_transGen]
  simp

theorem closesCircle_knot : knot.closesCircle ⟨"free"⟩ ⟨"line"⟩ = true ∧
    knot.closesCircle ⟨"free"⟩ ⟨"in"⟩ = false := by
  obtain ⟨line, hline, htargets⟩ : ∃ n, knot.node? ⟨"line"⟩ = some n ∧
      knot.targets n = [⟨"free"⟩, ⟨"in"⟩] := ⟨_, rfl, by decide +kernel⟩
  obtain ⟨first, hfirst, htargets₁⟩ : ∃ n, knot.node? ⟨"in"⟩ = some n ∧
      knot.targets n = [⟨"out"⟩] := ⟨_, rfl, by decide +kernel⟩
  obtain ⟨second, hsecond, htargets₂⟩ : ∃ n, knot.node? ⟨"out"⟩ = some n ∧
      knot.targets n = [⟨"in"⟩] := ⟨_, rfl, by decide +kernel⟩
  constructor
  · rw [closesCircle, comesUpon_of_stored List.not_mem_nil hline, htargets]
    simp
  · rw [closesCircle, comesUpon_of_stored List.not_mem_nil hfirst, htargets₁, List.append_nil,
      comesUpon_of_stored (by simp) hsecond, htargets₂, List.append_nil,
      comesUpon_of_passed (.inl (by simp)), comesUpon]
    simp

/--
**The check decides reachability.** In every store that batches lead to, the check
is positive just if source and target are one, or references lead from the target
to the source: each step to what an alias refers to, held as the value or in a
field, as seen from the token that holds it. Aliases without a target lead
nowhere, and circles on the way do not keep the search from its end.
-/
theorem closesCircle_iff_reaches (hs : s.Reachable) (source target : NodeId) :
    s.closesCircle source target = true ↔
      source = target ∨ Relation.TransGen s.RefersTo target source := by
  rw [closesCircle_eq_true_iff hs.consistent, Relation.reflTransGen_iff_eq_or_transGen]

/-- A dash is found from its stroke; from inside the circle the same search finds nothing. -/
theorem closesCircle_iff_reaches_knot : knot.Reachable ∧
    knot.closesCircle ⟨"free"⟩ ⟨"line"⟩ = true ∧
    Relation.TransGen knot.RefersTo ⟨"line"⟩ ⟨"free"⟩ ∧
    knot.closesCircle ⟨"free"⟩ ⟨"in"⟩ = false ∧
    ¬ Relation.TransGen knot.RefersTo ⟨"in"⟩ ⟨"free"⟩ := by
  have hr : knot.Reachable := reachable_ofNodes _
  obtain ⟨hline, hgap⟩ := closesCircle_knot
  have hfound := (closesCircle_iff_reaches hr ⟨"free"⟩ ⟨"line"⟩).1 hline
  refine ⟨hr, hline, hfound.resolve_left (by decide), hgap, fun hpath => ?_⟩
  have hclosed := (closesCircle_iff_reaches hr ⟨"free"⟩ ⟨"in"⟩).2 (.inr hpath)
  rw [hgap] at hclosed
  cases hclosed

/-! ## The store with the alias -/

/-- A node that keeps its key and its outline leaves the outline of the store. -/
theorem Consistent.sameOutline_put {s : Store} (h : s.Consistent) {n m : Node}
    (hm : s.node? n.id = some m) (horder : n.order = m.order) (houtline : n.outline = m.outline) :
    s.SameOutline (s.put n) where
  ids := (ids_put hm).symm
  node id := by
    rw [node?_put]
    by_cases hid : n.id = id
    · rw [if_pos hid, ← hid, hm, Option.map_some, Option.map_some, houtline]
    · rw [if_neg hid]
  children p := by
    rw [h.children_put hm horder (Node.parent_eq_of_outline houtline), List.map_map]
    refine List.map_congr_left fun c hc => ?_
    rw [Function.comp_apply]
    by_cases hid : c.id = n.id
    · rw [replaced_of_id_eq hid, h.eq_of_mem_children hm hc hid, houtline]
    · rw [replaced_of_id_ne hid]

/-- The store once a token's value has become an alias to `target`. -/
def aliased (s : Store) (n : Node) (target : NodeId) : Store :=
  s.commit (Batch.empty.set (n.withValue (.aliasTo (.id target))))

section

variable (hs : s.Consistent) {source : NodeId} {n : Node} (hn : s.node? source = some n)
  (target : NodeId)

include hs hn

theorem node?_aliased (id : NodeId) : (s.aliased n target).node? id =
    if source = id then some (n.withValue (.aliasTo (.id target))) else s.node? id := by
  have hid : n.id = source := hs.id_of_node? hn
  have hput := node?_put s (n.withValue (.aliasTo (.id target))) id
  rwa [Node.id_withValue, hid] at hput

theorem sameOutline_aliased : s.SameOutline (s.aliased n target) := by
  have hid : n.id = source := hs.id_of_node? hn
  have hstored : s.node? (n.withValue (.aliasTo (.id target))).id = some n := by
    rw [Node.id_withValue, hid, hn]
  exact hs.sameOutline_put hstored (Node.order_withValue ..) (Node.outline_withValue ..)

/-- Types of their own stay: no value is looked at for them. -/
theorem ownType_aliased {id : NodeId} {a b : Node} (ha : s.node? id = some a)
    (hb : (s.aliased n target).node? id = some b) :
    s.ownType a = (s.aliased n target).ownType b := by
  have houtline := sameOutline_aliased hs hn target
  let typed (a : Node) := (a.outline, a.content.declaredType)
  have hnode : ∀ id, (s.node? id).map typed = ((s.aliased n target).node? id).map typed := by
    intro id
    rw [node?_aliased hs hn]
    split
    · next he =>
      rw [← he, hn, Option.map_some, Option.map_some, Option.some.injEq, Prod.mk.injEq,
        Node.outline_withValue, Node.declaredType_withValue]
      exact ⟨rfl, rfl⟩
    · rfl
  have hab : typed a = typed b := by simpa [ha, hb] using hnode id
  have hancestors := map_ancestors hnode
    (fun _ _ he => Node.parent_eq_of_outline (congrArg Prod.fst he)) houtline.size b.id
  have hgroups := filter_of_map_eq hancestors
    fun _ _ he => Node.isGroup_eq_of_outline (congrArg Prod.fst he)
  rw [ownType, ownType, Node.id_eq_of_outline (congrArg Prod.fst hab),
    findSome?_of_map_eq hgroups fun _ _ he => congrArg Prod.snd he]
  exact congrArg (Option.or · _) (congrArg Prod.snd hab)

/-- The other tokens refer to what they referred to. -/
theorem refersTo_aliased {a b : NodeId} (ha : a ≠ source) (h : s.RefersTo a b) :
    (s.aliased n target).RefersTo a b := by
  obtain ⟨k, t, ref, m, hk, ht, href, hm, rfl⟩ := h
  have hk' : (s.aliased n target).node? a = some k := by
    rw [node?_aliased hs hn, if_neg (Ne.symm ha), hk]
  rcases (sameOutline_aliased hs hn target).target_cases ref a with ⟨e, he, -⟩ | ⟨m', m'', hm', hm'', he⟩
  · cases hm.symm.trans he
  · cases hm.symm.trans hm'
    exact ⟨k, t, ref, m'', hk', ht, href, hm'', he.symm⟩

theorem reflTransGen_aliased {a : NodeId} (h : Relation.ReflTransGen s.RefersTo a source) :
    Relation.ReflTransGen (s.aliased n target).RefersTo a source := by
  induction h using Relation.ReflTransGen.head_induction_on with
  | refl => exact .refl
  | @head a b hab _ ih =>
    -- a path that is at the source already needs nothing of what follows
    by_cases ha : a = source
    · exact ha ▸ .refl
    · exact .head (refersTo_aliased hs hn target ha hab) ih

/-- What is resolved from the target has changed nowhere, if the source is not part of it. -/
theorem agreeOn_aliased (hfree : ¬ Relation.ReflTransGen s.RefersTo target source) :
    AgreeOn (Relation.ReflTransGen s.RefersTo target) s (s.aliased n target) where
  toSameOutline := sameOutline_aliased hs hn target
  type _ _ _ _ ha hb := ownType_aliased hs hn target ha hb
  value id a b u v hid ha hu hb hv := by
    have hne : source ≠ id := fun he => hfree (he ▸ hid)
    rw [node?_aliased hs hn, if_neg hne] at hb
    cases ha.symm.trans hb
    cases hu.symm.trans hv
    rfl
  closed _ _ ha hab := ha.tail hab

section

variable {target} {m : Node} (hfound : s.target (.id target) source = .ok m)

include hfound

theorem found_aliased :
    ∃ m', (s.aliased n target).target (.id target) source = .ok m' ∧ m'.id = m.id := by
  have houtline := sameOutline_aliased hs hn target
  rcases houtline.target_cases (.id target) source with ⟨e, he, -⟩ | ⟨m', m'', hm', hm'', he⟩
  · cases hfound.symm.trans he
  · cases hfound.symm.trans hm'
    exact ⟨m'', hm'', he.symm⟩

variable {t : Token} (ht : n.content = .token t)

include ht

/-- The source refers to what the alias leads to. -/
theorem refersTo_found : (s.aliased n target).RefersTo source m.id := by
  obtain ⟨m', hm', hid⟩ := found_aliased hs hn hfound
  have hstored := node?_aliased hs hn target source
  rw [if_pos rfl] at hstored
  exact ⟨_, _, .id target, m', hstored, Node.content_withValue ht _, List.mem_singleton.2 rfl,
    hm', hid⟩

/-- Where a path leads back from there, the alias closes it. -/
theorem error_of_path_back (hback : Relation.ReflTransGen s.RefersTo m.id source) :
    ∃ e, (s.aliased n target).resolve source = .error e :=
  error_of_circle .refl
    (.head' (refersTo_found hs hn hfound ht) (reflTransGen_aliased hs hn target hback))

end

variable {target} {m : Node} (hm : s.node? target = some m) (htarget : m.isToken)

include hm htarget

theorem target_aliased :
    ∃ m', (s.aliased n target).target (.id target) source = .ok m' ∧ m'.id = target := by
  obtain ⟨m', hm', hid⟩ := found_aliased hs hn (target_id_of_token hm htarget source)
  exact ⟨m', hm', hid.trans (hs.id_of_node? hm)⟩

variable {t : Token} (ht : n.content = .token t)

include ht

theorem refersTo_aliased_source : (s.aliased n target).RefersTo source target := by
  have hfound := refersTo_found hs hn (target_id_of_token hm htarget source) ht
  rwa [hs.id_of_node? hm] at hfound

/-- The source resolves by way of the target, which resolves as before. -/
theorem resolve_aliased (hfree : ¬ Relation.ReflTransGen s.RefersTo target source) :
    ∃ own : Option TokenType, (s.aliased n target).resolve source =
      s.resolve target >>= fun r =>
        (s.aliased n target).checkType source ⟨own.getD r.type, r.value⟩ := by
  obtain ⟨m', hfound, hid⟩ := target_aliased hs hn hm htarget
  have hstored := node?_aliased hs hn target source
  rw [if_pos rfl] at hstored
  have hwait : ∀ c ∈ [source], ¬ Relation.ReflTransGen s.RefersTo target c := by
    intro c hc
    exact List.mem_singleton.1 hc ▸ hfree
  have hsame : s.resolve target = (s.aliased n target).resolveFrom [source] target :=
    (agreeOn_aliased hs hn target hfree).resolve_behind .refl hwait
  refine ⟨(s.aliased n target).ownType (n.withValue (.aliasTo (.id target))), ?_⟩
  rw [resolve, resolveFrom_aliasTo hstored (Node.content_withValue ht _) (List.not_mem_nil) rfl,
    hfound, hsame, ← hid]
  rfl

end

/--
**The check agrees with resolution.** Let the value of a token become an alias
to another token. If the check finds that this closes a circle, the token does
not resolve then. If it finds none, then the token resolves into a circle just
if the target did before, and into the same one.
-/
theorem closesCircle_agrees (hs : s.Reachable) {source target : NodeId} {n m : Node}
    (hn : s.node? source = some n) (hsource : n.isToken) (hm : s.node? target = some m)
    (htarget : m.isToken) :
    (s.closesCircle source target = true →
      ∃ e, (s.aliased n target).resolve source = .error e) ∧
    (s.closesCircle source target = false → ∀ paths,
      (s.aliased n target).resolve source = .error (.circle paths) ↔
        s.resolve target = .error (.circle paths)) := by
  have hc := hs.consistent
  obtain ⟨t, ht⟩ := Option.isSome_iff_exists.1 hsource
  rw [token?_eq_some_iff] at ht
  refine ⟨fun hclosed => ?_, fun hopen paths => ?_⟩
  · have hpath := (closesCircle_eq_true_iff hc).1 hclosed
    have hback : Relation.TransGen (s.aliased n target).RefersTo source source :=
      .head' (refersTo_aliased_source hc hn hm htarget ht) (reflTransGen_aliased hc hn target hpath)
    exact error_of_circle .refl hback
  · have hfree : ¬ Relation.ReflTransGen s.RefersTo target source := by
      rw [← closesCircle_eq_true_iff hc, hopen]
      exact Bool.false_ne_true
    obtain ⟨own, hresolve⟩ := resolve_aliased hc hn hm htarget ht hfree
    rw [hresolve, Outcome.bind_eq_error_iff]
    exact or_iff_left fun ⟨_, _, he⟩ => checkType_ne_circle he

/-- The length of a dash: as an alias to the stroke it closes a circle, into another one it leads. -/
theorem closesCircle_agrees_knot :
    knot.Reachable ∧ ∃ free line gap : Node, knot.node? ⟨"free"⟩ = some free ∧ free.isToken ∧
      knot.node? ⟨"line"⟩ = some line ∧ line.isToken ∧ knot.node? ⟨"in"⟩ = some gap ∧ gap.isToken ∧
      knot.closesCircle ⟨"free"⟩ ⟨"line"⟩ = true ∧
      (∃ e, (knot.aliased free ⟨"line"⟩).resolve ⟨"free"⟩ = .error e) ∧
      knot.closesCircle ⟨"free"⟩ ⟨"in"⟩ = false ∧
      (knot.aliased free ⟨"in"⟩).resolve ⟨"free"⟩ =
        .error (.circle ["gap.in", "gap.out", "gap.in"]) := by
  have hr : knot.Reachable := reachable_ofNodes _
  obtain ⟨hline, hgap⟩ := closesCircle_knot
  have hcircle : knot.resolve ⟨"in"⟩ = .error (.circle ["gap.in", "gap.out", "gap.in"]) := by
    decide +kernel
  refine ⟨hr, _, _, _, rfl, rfl, rfl, rfl, rfl, rfl, hline, ?_, hgap, ?_⟩
  · exact (closesCircle_agrees hr rfl rfl rfl rfl).1 hline
  · exact ((closesCircle_agrees hr rfl rfl rfl rfl).2 hgap _).2 hcircle

/-! ## Aliases to groups -/

theorem not_refersTo_of_group {group : NodeId} {g : Node} (hg : s.node? group = some g)
    (hgroup : g.isGroup) (b : NodeId) : ¬ s.RefersTo group b := by
  rintro ⟨g', t, _, _, hg', ht, _⟩
  cases hg.symm.trans hg'
  obtain ⟨c, hc⟩ := Node.isGroup_iff.1 hgroup
  cases hc.symm.trans ht

/-- Sent to a group, the search has nothing to follow. -/
theorem closesCircle_of_group (hs : s.Consistent) {source group : NodeId} {n g : Node}
    (hn : s.node? source = some n) (hsource : n.isToken) (hg : s.node? group = some g)
    (hgroup : g.isGroup) : s.closesCircle source group = false := by
  have hne : source ≠ group := by
    rintro rfl
    cases hn.symm.trans hg
    obtain ⟨t, ht⟩ := Node.isToken_iff.1 hsource
    obtain ⟨c, hc⟩ := Node.isGroup_iff.1 hgroup
    cases ht.symm.trans hc
  rw [Bool.eq_false_iff, ne_eq, closesCircle_eq_true_iff hs,
    Relation.reflTransGen_iff_eq (not_refersTo_of_group hg hgroup)]
  exact hne

/--
**The check does not look behind a group.** Wherever it is held, an alias to a
group leads to the group's own token. The check is sent to the group, which holds
no alias, and is never positive there. So it answers as it does for the group's
own token just if no references lead from that to the source; and where it
answers otherwise, the source does not resolve once it has the alias.
-/
theorem closesCircle_group_iff (hs : s.Reachable) {source group : NodeId} {n g r : Node}
    (hn : s.node? source = some n) (hsource : n.isToken) (hg : s.node? group = some g)
    (hgroup : g.isGroup) (hroot : s.ownToken? group = some r) :
    (∀ holder, s.target (.id group) holder = .ok r) ∧
    s.closesCircle source group = false ∧
    (s.closesCircle source group = s.closesCircle source r.id ↔
      ¬ Relation.ReflTransGen s.RefersTo r.id source) ∧
    (s.closesCircle source group ≠ s.closesCircle source r.id →
      ∃ e, (s.aliased n group).resolve source = .error e) := by
  have hc := hs.consistent
  have hmeant := target_id_of_group hg hgroup hroot
  have hopen := closesCircle_of_group hc hn hsource hg hgroup
  have hsame : s.closesCircle source group = s.closesCircle source r.id ↔
      ¬ Relation.ReflTransGen s.RefersTo r.id source := by
    rw [hopen, ← closesCircle_eq_true_iff hc, Bool.not_eq_true]
    exact eq_comm
  refine ⟨hmeant, hopen, hsame, fun hdiffers => ?_⟩
  obtain ⟨t, ht⟩ := Node.isToken_iff.1 hsource
  have hback : Relation.ReflTransGen s.RefersTo r.id source :=
    not_not.1 fun hfree => hdiffers (hsame.2 hfree)
  exact error_of_path_back hc hn (hmeant source) ht hback

/-- A group whose own token is an alias to a token beside it, and another token there. -/
def detour : Store :=
  ofNodes [⟨⟨"ink"⟩, none, "a0", .group ⟨"ink", .none, none⟩⟩,
    ⟨⟨"own"⟩, some ⟨"ink"⟩, "a0", .token ⟨rootTokenName, .none, none, .aliasTo (.path "base")⟩⟩,
    ⟨⟨"base"⟩, none, "a1", .token ⟨"base", .none, some .number, .literal (.number (.integer 1))⟩⟩,
    ⟨⟨"rest"⟩, none, "a2", .token ⟨"rest", .none, some .number, .literal (.number (.integer 2))⟩⟩]

theorem closesCircle_detour :
    detour.closesCircle ⟨"base"⟩ ⟨"own"⟩ = true ∧ detour.closesCircle ⟨"rest"⟩ ⟨"own"⟩ = false := by
  obtain ⟨own, hown, htargets⟩ : ∃ n, detour.node? ⟨"own"⟩ = some n ∧
      detour.targets n = [⟨"base"⟩] := ⟨_, rfl, by decide +kernel⟩
  obtain ⟨base, hbase, htargets₁⟩ : ∃ n, detour.node? ⟨"base"⟩ = some n ∧
      detour.targets n = [] := ⟨_, rfl, by decide +kernel⟩
  constructor
  · rw [closesCircle, comesUpon_of_stored List.not_mem_nil hown, htargets]
    simp
  · rw [closesCircle, comesUpon_of_stored List.not_mem_nil hown, htargets, List.append_nil,
      comesUpon_of_stored (by simp) hbase, htargets₁, List.append_nil, comesUpon]
    simp

/-- The group stands for a token that refers back, and the check for the group does not see it. -/
theorem detour_overlooked : detour.Reachable ∧ ∃ base ink own : Node,
    detour.node? ⟨"base"⟩ = some base ∧ base.isToken ∧
    detour.node? ⟨"ink"⟩ = some ink ∧ ink.isGroup ∧ detour.ownToken? ⟨"ink"⟩ = some own ∧
    own.id = ⟨"own"⟩ ∧ detour.target (.id ⟨"ink"⟩) ⟨"base"⟩ = .ok own ∧
    detour.closesCircle ⟨"base"⟩ ⟨"ink"⟩ = false ∧ detour.closesCircle ⟨"base"⟩ own.id = true := by
  have hr : detour.Reachable := reachable_ofNodes _
  have hopen : detour.closesCircle ⟨"base"⟩ ⟨"ink"⟩ = false :=
    closesCircle_of_group hr.consistent rfl rfl rfl rfl
  exact ⟨hr, _, _, _, rfl, rfl, rfl, rfl, rfl, rfl, target_id_of_group rfl rfl rfl _, hopen,
    closesCircle_detour.1⟩

/-- Of two tokens with an alias to the group, the one that the group's own token leads back to. -/
theorem closesCircle_group_iff_detour : detour.Reachable ∧ ∃ base rest ink own : Node,
    detour.node? ⟨"base"⟩ = some base ∧ base.isToken ∧ detour.node? ⟨"rest"⟩ = some rest ∧
    rest.isToken ∧ detour.node? ⟨"ink"⟩ = some ink ∧ ink.isGroup ∧
    detour.ownToken? ⟨"ink"⟩ = some own ∧
    (∃ e, (detour.aliased base ⟨"ink"⟩).resolve ⟨"base"⟩ = .error e) ∧
    ¬ Relation.ReflTransGen detour.RefersTo own.id ⟨"rest"⟩ := by
  have hr : detour.Reachable := reachable_ofNodes _
  obtain ⟨base, hbase, hbaseToken⟩ : ∃ n, detour.node? ⟨"base"⟩ = some n ∧ n.isToken :=
    ⟨_, rfl, rfl⟩
  obtain ⟨rest, hrest, hrestToken⟩ : ∃ n, detour.node? ⟨"rest"⟩ = some n ∧ n.isToken :=
    ⟨_, rfl, rfl⟩
  obtain ⟨ink, hink, hgroup⟩ : ∃ n, detour.node? ⟨"ink"⟩ = some n ∧ n.isGroup := ⟨_, rfl, rfl⟩
  obtain ⟨own, hown, hid⟩ : ∃ n, detour.ownToken? ⟨"ink"⟩ = some n ∧ n.id = ⟨"own"⟩ :=
    ⟨_, rfl, rfl⟩
  obtain ⟨hback, hfree⟩ := closesCircle_detour
  obtain ⟨-, hopen, -, hstuck⟩ := closesCircle_group_iff hr hbase hbaseToken hink hgroup hown
  obtain ⟨-, hopen', hsame, -⟩ := closesCircle_group_iff hr hrest hrestToken hink hgroup hown
  refine ⟨hr, base, rest, ink, own, hbase, hbaseToken, hrest, hrestToken, hink, hgroup, hown,
    hstuck ?_, hsame.1 ?_⟩
  · rw [hopen, hid, hback]
    exact Bool.false_ne_true
  · rw [hopen', hid, hfree]

end Store

end DesignTokens
