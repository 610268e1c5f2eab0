/-
Why a store cannot be written, as a tree or as a resolver document without stray
nodes. An id that a token holds is written as the path of the node that it
names, whatever that node is; so a store cannot be written just if a token that
is come by holds the id of a node that is not there (`fails_iff_cites_missing`).
That is less than it takes for the id to have a target: there may be a node
under it, but no token, as there is under the id of a group without a token of
its own (`hollowNodes_written`).
-/
import DesignTokens.Document.Resolver.Writer
import DesignTokens.Proofs.Document.Tree.Failure
import DesignTokens.Proofs.List
import DesignTokens.Resolution.Basic

namespace DesignTokens

open Outcome (error? error?_bind error?_bind_pure error?_mapM)

namespace Resolver

variable {minimal : Bool} {s : Store}

/-- All items are sets or modifiers, and there are only contexts below modifiers. -/
def NoStray (s : Store) : Prop :=
  ∀ n ∈ itemsAtRoot s, (∃ set, n.content = .set set) ∨
    (∃ m, n.content = .modifier m) ∧ ∀ c ∈ s.children (some n.id), c.isContext

/-- The sets and contexts that an item is written with. -/
def itemContainers (s : Store) (n : Node) : List Node :=
  match n.content with
  | .set _ => [n]
  | .modifier _ => s.children (some n.id)
  | _ => []

/-- The sets and contexts that a store is written with. -/
def containers (s : Store) : List Node := (itemsAtRoot s).flatMap (itemContainers s)

theorem error?_writeSources (id : NodeId) :
    error? (writeSources minimal s id) = error? (Tree.writeBelow minimal s (some id)) :=
  error?_bind_pure

theorem error?_writeContexts {cs : List Node} (h : ∀ c ∈ cs, c.isContext) (written : Members) :
    error? (writeContexts minimal s written cs) =
      cs.findSome? fun c => error? (Tree.writeBelow minimal s (some c.id)) := by
  induction cs generalizing written with
  | nil => rfl
  | cons c cs ih =>
    obtain ⟨hc, hcs⟩ := List.forall_mem_cons.1 h
    rw [writeContexts, if_pos hc, error?_bind (error?_writeSources c.id) fun _ => ih hcs _,
      List.findSome?_cons]
    cases error? (Tree.writeBelow minimal s (some c.id)) <;> rfl

theorem error?_writeItem {n : Node} (h : (∃ set, n.content = .set set) ∨
    (∃ m, n.content = .modifier m) ∧ ∀ c ∈ s.children (some n.id), c.isContext) :
    error? (writeItem minimal s n) =
      (itemContainers s n).findSome? fun c => error? (Tree.writeBelow minimal s (some c.id)) := by
  rw [writeItem, itemContainers]
  rcases h with ⟨set, hset⟩ | ⟨⟨m, hm⟩, hcontexts⟩
  · simp only [hset]
    rw [error?_bind_pure, error?_writeSources, List.findSome?_singleton]
  · simp only [hm]
    rw [error?_bind_pure, error?_writeContexts hcontexts]

/-- A store without stray nodes is not written for the reason why the first of its sets and contexts
is not, if any is not. -/
theorem error?_write (h : NoStray s) (info : Option ResolverInfo) :
    error? (write minimal s info) =
      (containers s).findSome? fun c => error? (Tree.writeBelow minimal s (some c.id)) := by
  rw [write, error?_bind_pure, error?_mapM, containers, findSome?_flatMap]
  exact findSome?_congr fun n hn => error?_writeItem (h n hn)

theorem stored_of_mem_itemsAtRoot (hc : s.Consistent) {n : Node} (hn : n ∈ itemsAtRoot s) :
    s.node? n.id = some n := by
  obtain ⟨root, hroot, hn⟩ := List.mem_flatMap.1 hn
  split at hn
  · exact (hc.mem_children_iff.1 hn).1
  · exact List.mem_singleton.1 hn ▸ (hc.mem_children_iff.1 hroot).1

/-- What is written as an item, or in one, is no group. -/
theorem outermost_of_mem_containers (hc : s.Consistent) (h : NoStray s) {c : Node}
    (hmem : c ∈ containers s) : s.Outermost (some c.id) := by
  obtain ⟨n, hn, hcn⟩ := List.mem_flatMap.1 hmem
  rw [itemContainers] at hcn
  rcases h n hn with ⟨set, hset⟩ | ⟨⟨m, hm⟩, hcontexts⟩
  · simp only [hset, List.mem_singleton] at hcn
    rw [hcn]
    refine Store.outermost_of_stored (stored_of_mem_itemsAtRoot hc hn) ?_
    rw [Node.isGroup, Node.group?, hset]
    rfl
  · simp only [hm] at hcn
    obtain ⟨name, hcontext⟩ := Node.isContext_iff.1 (hcontexts c hcn)
    refine Store.outermost_of_stored (hc.mem_children_iff.1 hcn).1 ?_
    rw [Node.isGroup, Node.group?, hcontext]
    rfl

end Resolver

/-! ## What makes writing fail -/

namespace Store

variable {s : Store}

/-- What a writer gives for a store, and the parents below which it writes groups and tokens. -/
inductive Written (s : Store) : List (Option NodeId) → Except WriteError Json → Prop
  | tree (minimal : Bool) : Written s [none] (Tree.write minimal s)
  | resolver (minimal : Bool) (info : Option ResolverInfo) (h : Resolver.NoStray s) :
      Written s ((Resolver.containers s).map fun c => some c.id) (Resolver.write minimal s info)

/-- A token on one of the parents holds an id, as its value or in a field. -/
def Cites (s : Store) (tops : List (Option NodeId)) (n : Node) (id : NodeId) : Prop :=
  (∃ top ∈ tops, s.HangsOn top n) ∧ ∃ t, n.content = .token t ∧ .id id ∈ t.value.aliases

theorem path?_eq_none_iff {id : NodeId} : s.path? id = none ↔ s.node? id = none := by
  rw [path?, Option.map_eq_none_iff]

/-- There is no text for the id of a node that is not there, and for nothing else. -/
theorem error?_aliasText_eq_some_iff {holder : NodeId} {ref : Alias} {e : WriteError} :
    error? (s.aliasText holder ref) = some e ↔
      ∃ id, ref = .id id ∧ s.node? id = none ∧ e = .missingTarget holder (.id id) := by
  cases ref with
  | path dotted => simp [aliasText, error?]
  | id id =>
    rw [aliasText]
    cases hp : s.path? id with
    | none =>
      rw [path?_eq_none_iff] at hp
      simp [error?, hp, eq_comm]
    | some dotted =>
      have hn : s.node? id ≠ none := fun hn => by rw [path?_eq_none_iff.2 hn] at hp; cases hp
      simp [error?, hn]

theorem Written.error?_eq {tops : List (Option NodeId)} {outcome : Except WriteError Json}
    (h : s.Written tops outcome) : error? outcome = tops.findSome? fun top =>
      (forestTokens (s.forest top)).findSome? fun x =>
        x.2.value.aliases.findSome? fun ref => error? (s.aliasText x.1 ref) := by
  cases h with
  | tree minimal => rw [Tree.write, Tree.error?_writeBelow, List.findSome?_singleton]
  | resolver minimal info h =>
    rw [Resolver.error?_write h, List.findSome?_map]
    exact findSome?_congr fun c _ => Tree.error?_writeBelow minimal s _

theorem Written.outermost (hc : s.Consistent) {tops : List (Option NodeId)}
    {outcome : Except WriteError Json} (h : s.Written tops outcome) : ∀ top ∈ tops, s.Outermost top := by
  cases h with
  | tree => exact List.forall_mem_singleton.2 s.outermost_none
  | resolver _ _ h =>
    exact List.forall_mem_map.2 fun c hmem => Resolver.outermost_of_mem_containers hc h hmem

/-- The reasons for which a document is not written. -/
theorem Written.error?_eq_some (hc : s.Consistent) {tops : List (Option NodeId)}
    {outcome : Except WriteError Json} (h : s.Written tops outcome) {e : WriteError}
    (he : error? outcome = some e) :
    ∃ n id, s.Cites tops n id ∧ s.node? id = none ∧ e = .missingTarget n.id (.id id) := by
  rw [h.error?_eq] at he
  obtain ⟨top, htop, he⟩ := List.exists_of_findSome?_eq_some he
  obtain ⟨x, hx, he⟩ := List.exists_of_findSome?_eq_some he
  obtain ⟨ref, href, he⟩ := List.exists_of_findSome?_eq_some he
  obtain ⟨id, rfl, hn, rfl⟩ := error?_aliasText_eq_some_iff.1 he
  obtain ⟨n, hangs, hid, hcontent⟩ := (mem_forestTokens_forest_iff hc (h.outermost hc top htop)).1 hx
  exact ⟨n, id, ⟨⟨top, htop, hangs⟩, x.2, hcontent, href⟩, hn, by rw [hid]⟩

/-- Where a document is written, every id in it has a text. -/
theorem Written.error?_aliasText (hc : s.Consistent) {tops : List (Option NodeId)}
    {outcome : Except WriteError Json} (h : s.Written tops outcome) (hok : error? outcome = none)
    {n : Node} {id : NodeId} (hcites : s.Cites tops n id) :
    error? (s.aliasText n.id (.id id)) = none := by
  obtain ⟨⟨top, htop, hangs⟩, t, hcontent, href⟩ := hcites
  rw [h.error?_eq, List.findSome?_eq_none_iff] at hok
  have hx : (n.id, t) ∈ forestTokens (s.forest top) :=
    (mem_forestTokens_forest_iff hc (h.outermost hc top htop)).2 ⟨n, hangs, rfl, hcontent⟩
  have haliases := List.findSome?_eq_none_iff.1 (hok top htop) _ hx
  exact List.findSome?_eq_none_iff.1 haliases _ href

/-- There is a node under an id, but it is no token and has none of its own. -/
def Hollow (s : Store) (id : NodeId) : Prop :=
  ∃ m, s.node? id = some m ∧ m.isToken = false ∧ (m.isGroup → s.ownToken? id = none)

/-- An id has no target if there is no node under it, or no token, and only then. -/
theorem target_id_eq_error_iff {id holder : NodeId} :
    (∃ e, s.target (.id id) holder = .error e) ↔ s.node? id = none ∨ s.Hollow id := by
  rw [target]
  cases hm : s.node? id with
  | none => simp
  | some m =>
    by_cases htoken : m.isToken
    · simp [htoken, Hollow, hm]
    · by_cases hgroup : m.isGroup
      · cases hown : s.ownToken? id <;> simp [htoken, hgroup, Hollow, hm, hown]
      · simp [htoken, hgroup, Hollow, hm]

/--
**Writing fails for missing nodes.** A store is written as a tree, or as a
resolver document if no node of it is stray there. That fails if and only if a
token that hangs on the root level, or on a set or a context, holds the id of a
node that is not there, as its value or in any field of it; and this token and
this id are told. If it does not fail, each id that is held is written as the
path of the node that it names. So it fails just if an id that is held has no
target, unless no node is missing and an id names one that is no token and has
none of its own.
-/
theorem fails_iff_cites_missing (hs : s.Reachable) {tops : List (Option NodeId)}
    {outcome : Except WriteError Json} (h : s.Written tops outcome) :
    ((∃ e, outcome = .error e) ↔ ∃ n id, s.Cites tops n id ∧ s.node? id = none) ∧
    (∀ e, outcome = .error e →
      ∃ n id, s.Cites tops n id ∧ s.node? id = none ∧ e = .missingTarget n.id (.id id)) ∧
    (∀ doc, outcome = .ok doc → ∀ n id, s.Cites tops n id → ∃ dotted,
      s.path? id = some dotted ∧ s.aliasText n.id (.id id) = .ok (Alias.braced dotted)) ∧
    (((∃ e, outcome = .error e) ↔
        ∃ n id, s.Cites tops n id ∧ ∃ e, s.target (.id id) n.id = .error e) ↔
      (∃ e, outcome = .error e) ∨ ∀ n id, s.Cites tops n id → ¬ s.Hollow id) := by
  have hc := hs.consistent
  have herror : ∀ e, outcome = .error e →
      ∃ n id, s.Cites tops n id ∧ s.node? id = none ∧ e = .missingTarget n.id (.id id) :=
    fun e he => h.error?_eq_some hc (Outcome.error?_eq_some_iff.2 he)
  have hok : ∀ doc, outcome = .ok doc → ∀ n id, s.Cites tops n id → ∃ dotted,
      s.path? id = some dotted ∧ s.aliasText n.id (.id id) = .ok (Alias.braced dotted) := by
    intro doc hdoc n id hcites
    have htext := h.error?_aliasText hc (Outcome.error?_eq_none_iff.2 ⟨doc, hdoc⟩) hcites
    rw [aliasText] at htext ⊢
    cases hp : s.path? id with
    | none => rw [hp] at htext; cases htext
    | some dotted => exact ⟨dotted, rfl, rfl⟩
  have hfails : (∃ e, outcome = .error e) ↔ ∃ n id, s.Cites tops n id ∧ s.node? id = none := by
    constructor
    · rintro ⟨e, he⟩
      obtain ⟨n, id, hcites, hn, -⟩ := herror e he
      exact ⟨n, id, hcites, hn⟩
    · rintro ⟨n, id, hcites, hn⟩
      cases hdoc : outcome with
      | error e => exact ⟨e, rfl⟩
      | ok doc =>
        obtain ⟨dotted, hp, -⟩ := hok doc hdoc n id hcites
        rw [path?_eq_none_iff.2 hn] at hp
        cases hp
  refine ⟨hfails, herror, hok, ?_⟩
  simp only [target_id_eq_error_iff]
  constructor
  · intro hiff
    by_cases hf : ∃ e, outcome = .error e
    · exact .inl hf
    · exact .inr fun n id hcites hhollow => hf (hiff.2 ⟨n, id, hcites, .inr hhollow⟩)
  · rintro (hf | hnone)
    · obtain ⟨n, id, hcites, hn⟩ := hfails.1 hf
      exact iff_of_true hf ⟨n, id, hcites, .inl hn⟩
    · rw [hfails]
      refine exists_congr fun n => exists_congr fun id => and_congr_right fun hcites => ?_
      rw [or_iff_left (hnone n id hcites)]

/-- A set with a border in a group, the style of which holds two ids among its dashes, and a second
border below a node that is not there. -/
def bordersNodes : List Node :=
  let border (id parent : String) (dash : NodeId) : Node :=
    let dashes : StrokeStyle := .dashed [.aliasTo (.id ⟨"set"⟩), .aliasTo (.id dash)] .round
    ⟨⟨id⟩, some ⟨parent⟩, "a0", .token ⟨id, .none, some .border,
      .literal (.border ⟨.aliasTo (.path "ink"), .aliasTo (.path "thin"), .value dashes⟩)⟩⟩
  [⟨⟨"set"⟩, none, "a0", .set ⟨"base", none, none⟩⟩,
    ⟨⟨"lines"⟩, some ⟨"set"⟩, "a0", .group ⟨"lines", .none, none⟩⟩,
    border "rule" "lines" ⟨"gone"⟩, border "adrift" "nowhere" ⟨"lost"⟩]

/-- The first border makes writing fail, and by the second of its ids; the second border does not. -/
theorem fails_iff_cites_missing_borders :
    ((ofNodes bordersNodes).Reachable ∧ (ofNodes bordersNodes).Written [some ⟨"set"⟩]
      (Resolver.write false (ofNodes bordersNodes) none)) ∧
    (ofNodes bordersNodes).Cites [some ⟨"set"⟩] bordersNodes[2] ⟨"set"⟩ ∧
    (ofNodes bordersNodes).Cites [some ⟨"set"⟩] bordersNodes[2] ⟨"gone"⟩ ∧
    (∃ e, Resolver.write false (ofNodes bordersNodes) none = .error e) ∧
    Resolver.write false (ofNodes bordersNodes) none =
      .error (.missingTarget ⟨"rule"⟩ (.id ⟨"gone"⟩)) := by
  have hs : (ofNodes bordersNodes).Reachable := reachable_ofNodes _
  have hitems : Resolver.itemsAtRoot (ofNodes bordersNodes) = [bordersNodes[0]] := by decide +kernel
  have hstray : Resolver.NoStray (ofNodes bordersNodes) := by
    rw [Resolver.NoStray, hitems]
    exact List.forall_mem_singleton.2 (.inl ⟨_, rfl⟩)
  have hcontainers : (Resolver.containers (ofNodes bordersNodes)).map (fun c => some c.id) =
      [some ⟨"set"⟩] := by decide +kernel
  have hwritten : (ofNodes bordersNodes).Written [some ⟨"set"⟩]
      (Resolver.write false (ofNodes bordersNodes) none) :=
    hcontainers ▸ .resolver false none hstray
  have hangs : (ofNodes bordersNodes).HangsOn (some ⟨"set"⟩) bordersNodes[2] :=
    ⟨by decide +kernel, _, .up (g := bordersNodes[1]) (by decide +kernel) (by decide) .here⟩
  have hcites : ∀ id ∈ [(⟨"set"⟩ : NodeId), ⟨"gone"⟩],
      (ofNodes bordersNodes).Cites [some ⟨"set"⟩] bordersNodes[2] id :=
    fun id hid => ⟨⟨_, List.mem_singleton.2 rfl, hangs⟩, _, rfl, by revert id; decide⟩
  have hgone := hcites ⟨"gone"⟩ (by decide)
  refine ⟨⟨hs, hwritten⟩, hcites ⟨"set"⟩ (by decide), hgone, ?_, by decide +kernel⟩
  exact (fails_iff_cites_missing hs hwritten).1.2 ⟨_, _, hgone, by decide +kernel⟩

/-- A group without tokens, and a token that holds its id. -/
def hollowNodes : List Node :=
  [⟨⟨"g"⟩, none, "a0", .group ⟨"g", .none, none⟩⟩,
    ⟨⟨"t"⟩, none, "a1", .token ⟨"t", .none, none, .aliasTo (.id ⟨"g"⟩)⟩⟩]

/-- The id of a group is written as its path, though the group has no token that it could stand for. -/
theorem hollowNodes_written :
    (ofNodes hollowNodes).Reachable ∧
    Tree.write false (ofNodes hollowNodes) =
      .ok (.object [("g", .object []), ("t", .object [("$value", .string "\x7bg\x7d")])]) ∧
    ¬ ((∃ e, Tree.write false (ofNodes hollowNodes) = .error e) ↔
      ∃ n id, (ofNodes hollowNodes).Cites [none] n id ∧
        ∃ e, (ofNodes hollowNodes).target (.id id) n.id = .error e) := by
  have hwrite : Tree.write false (ofNodes hollowNodes) =
      .ok (.object [("g", .object []), ("t", .object [("$value", .string "\x7bg\x7d")])]) := by
    decide +kernel
  have hcites : (ofNodes hollowNodes).Cites [none] hollowNodes[1] ⟨"g"⟩ :=
    ⟨⟨none, List.mem_singleton.2 rfl, by decide +kernel, [], .here⟩, _, rfl, by decide⟩
  refine ⟨reachable_ofNodes _, hwrite, fun hiff => ?_⟩
  obtain ⟨e, he⟩ := hiff.2 ⟨_, _, hcites, .noTarget (.id ⟨"g"⟩), by decide +kernel⟩
  rw [hwrite] at he
  cases he

end Store

end DesignTokens
