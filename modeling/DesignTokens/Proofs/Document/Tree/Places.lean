/-
Where the nodes of a store stand in its document. The writer follows the
children of each group without a record of the groups that it is in. Parents may
lead in a circle, but no walk down from the top meets one: what it comes by has
groups above it up to the top, and no group comes twice among them. So it ends,
no deeper than the store has nodes (`Store.descend_eq`).

If siblings have distinct names, each of which may be the key of an entry, the
document has an object for every group and token with only groups above it, at
the path of their names, and no other entry.
-/
import DesignTokens.Proofs.Document.Holder
import DesignTokens.Proofs.Document.Resolver.Failure
import DesignTokens.Proofs.Document.Tree.Complete
import DesignTokens.Proofs.Document.Tree.Namespace
import DesignTokens.Proofs.Json.Joined
import DesignTokens.Proofs.Store.Lineage

namespace DesignTokens

open Json DesignTokens.Tree

namespace Store

variable {s : Store}

/-! ## The walk down -/

/-- The groups and tokens below a parent, by a walk that does not know where it was; nothing if it
would go deeper than this. -/
def descend (s : Store) : Nat → Option NodeId → Option (Forest NodeId)
  | 0, _ => none
  | depth + 1, p => do
    let found ← (s.children p).mapM fun n =>
      match n.content with
      | .token t => some [(n.order, .token n.id t)]
      | .group g => (s.descend depth (some n.id)).map fun below => [(n.order, .group n.id g below)]
      | _ => some []
    return found.flatten

/-- The walk finds what a walk finds that keeps a record, and it goes no deeper than there are
nodes; the induction is on the depth that is left. -/
theorem descend_eq (hc : s.Consistent) {top : Option NodeId} (htop : s.Outermost top)
    {depth : Nat} {p : Option NodeId} {above : List Node} (h : s.UpTo top p above)
    (hdepth : s.size < depth + above.length) :
    s.descend depth p = some (s.forestBelow (above.map Node.id) p) := by
  induction depth generalizing p above with
  | zero =>
    have hle := h.length_le hc htop
    omega
  | succ depth ih =>
    have hstep : ∀ n ∈ s.children p, (match n.content with
        | .token t => some [(n.order, .token n.id t)]
        | .group g => (s.descend depth (some n.id)).map fun below =>
            [(n.order, .group n.id g below)]
        | _ => some []) = some (s.branch? (above.map Node.id) n).toList := by
      intro n hn
      rw [branch?]
      cases hcontent : n.content with
      | group g =>
        have hgroup := Node.isGroup_iff.2 ⟨g, hcontent⟩
        obtain ⟨hstored, rfl⟩ := hc.mem_children_iff.1 hn
        have hbelow := ih (.up hstored hgroup h) (by rw [List.length_cons]; omega)
        simp only
        rw [hbelow, if_pos (h.fresh hc htop hn hgroup)]
        rfl
      | _ => rfl
    rw [descend, mapM_eq_pure_map hstep, forestBelow_eq]
    exact congrArg some (by rw [← List.flatMap_def, List.filterMap_eq_flatMap_toList])

/-! ## Nodes that stand in a document -/

/-- Groups and tokens have names that may be keys of entries, and siblings have distinct ones. -/
structure Titled (s : Store) : Prop where
  named : ∀ n ∈ s.nodes, n.content.isEntry → Name.Valid n.name ∨ n.name = rootTokenName
  distinct : ∀ a ∈ s.nodes, ∀ b ∈ s.nodes, a.content.isEntry → b.content.isEntry →
    a.parent = b.parent → a.name = b.name → a = b

/-- Every id that a token holds, as its value or in a field, is that of a node. -/
def Cited (s : Store) : Prop :=
  ∀ n ∈ s.nodes, ∀ t id, n.content = .token t → .id id ∈ t.value.aliases →
    ∃ m, s.node? id = some m

/-- The names of these groups, the nearest first, as a path. -/
def pathOf (above : List Node) : List String := (above.map Node.name).reverse

/-- A group or token with only groups above it up to a root, and the path of their names. -/
def Stands (s : Store) (n : Node) (path : List String) : Prop :=
  s.node? n.id = some n ∧ n.content.isEntry ∧
    ∃ above, s.Around n.parent above ∧ path = pathOf above ++ [n.name]

theorem Titled.isChild (h : s.Titled) {n : Node} (hn : n ∈ s.nodes) (he : n.content.isEntry) :
    Name.isChild n.name := by
  rcases h.named n hn he with hv | hroot
  · simp [Name.isChild, hv.not_reserved]
  · simp [Name.isChild, hroot]

theorem pathOf_cons (n : Node) (above : List Node) :
    pathOf (n :: above) = pathOf above ++ [n.name] := by
  rw [pathOf, List.map_cons, List.reverse_cons, pathOf]

theorem Around.lineage {p : Option NodeId} {above : List Node} (h : s.Around p above) :
    s.Lineage p above := by
  induction h with
  | root => exact .root
  | up stored _ _ ih => exact .up stored ih

namespace Stands

variable {n : Node} {path : List String}

/-- Nothing that the node lies in is on a circle, without its parent, or, above it, no group. -/
theorem sound (h : s.Stands n path) {a : Node} (ha : s.LiesIn a n.id) :
    (a = n ∨ a.isGroup) ∧
      ∀ p, a.parent = some p → (∃ b, s.node? p = some b) ∧ ¬ s.LiesIn a p := by
  obtain ⟨hstored, -, above, haround, -⟩ := h
  have hlineage : s.Lineage (some n.id) (n :: above) := .up hstored haround.lineage
  have hmem := hlineage.mem_iff.2 ha
  refine ⟨(List.mem_cons.1 hmem).imp_right haround.upTo.isGroup_of_mem, fun p hp => ?_⟩
  obtain ⟨rest, hrest, -⟩ := hlineage.of_mem hmem
  rw [hp] at hrest
  constructor
  · cases hrest with
    | up stored _ => exact ⟨_, stored⟩
  · -- from the second time on the way would be shorter than from the first
    intro hlies
    obtain ⟨rest', hrest', hlt⟩ := hrest.of_mem (hrest.mem_iff.2 hlies)
    rw [hp] at hrest'
    rw [hrest'.unique hrest] at hlt
    exact Nat.lt_irrefl _ hlt

theorem path_unique (h : s.Stands n path) {path' : List String} (h' : s.Stands n path') :
    path' = path := by
  obtain ⟨-, -, above, ha, rfl⟩ := h
  obtain ⟨-, -, above', ha', rfl⟩ := h'
  rw [ha.unique ha']

end Stands

section

variable (hc : s.Consistent) (ht : s.Titled)

include hc

theorem mem_nodes_of_child {p : Option NodeId} {n : Node} (hn : n ∈ s.children p) : n ∈ s.nodes :=
  (hc.mem_children_iff_mem_nodes.1 hn).1

include ht

theorem Titled.eq_of_children {p : Option NodeId} {a b : Node} (ha : a ∈ s.children p)
    (hb : b ∈ s.children p) (hea : a.content.isEntry) (heb : b.content.isEntry)
    (hname : a.name = b.name) : a = b := by
  obtain ⟨ha, hpa⟩ := hc.mem_children_iff_mem_nodes.1 ha
  obtain ⟨hb, hpb⟩ := hc.mem_children_iff_mem_nodes.1 hb
  exact ht.distinct a ha b hb hea heb (hpa.trans hpb.symm) hname

/-- Groups with the same names above a parent are the same groups. -/
theorem Titled.around_inj {p q : Option NodeId} {above above' : List Node} (h : s.Around p above)
    (h' : s.Around q above') (hnames : above.map Node.name = above'.map Node.name) : p = q := by
  induction h generalizing q above' with
  | root =>
    cases h' with
    | root => rfl
    | up => cases hnames
  | up stored group _ ih =>
    cases h' with
    | root => cases hnames
    | @up id' g' above' stored' group' rest' =>
      obtain ⟨hname, hnames⟩ := List.cons.inj hnames
      obtain rfl := hc.id_of_node? stored
      obtain rfl := hc.id_of_node? stored'
      have hmem := hc.mem_children_iff.2 ⟨stored, ih rest' hnames⟩
      have hmem' := hc.mem_children_iff.2 ⟨stored', rfl⟩
      rw [ht.eq_of_children hc hmem hmem' (Node.isEntry_iff.2 (.inr group))
        (Node.isEntry_iff.2 (.inr group')) hname]

/-- No two nodes stand at one path. -/
theorem Stands.unique {n m : Node} {path : List String} (h : s.Stands n path)
    (h' : s.Stands m path) : n = m := by
  obtain ⟨hn, hentry, above, haround, rfl⟩ := h
  obtain ⟨hm, hentry', above', haround', he⟩ := h'
  obtain ⟨hnames, hname⟩ := List.append_inj' he rfl
  have hparent := ht.around_inj hc haround haround' (List.reverse_injective hnames)
  exact ht.eq_of_children hc (hc.mem_children_iff.2 ⟨hn, rfl⟩)
    (hc.mem_children_iff.2 ⟨hm, hparent.symm⟩) hentry hentry' (List.cons.inj hname).1

end

end Store

/-! ## What is written of siblings -/

namespace Tree

theorem get?_byName (named : List (String × Json)) (k : String) :
    Dict.get? (byName named) k = Dict.get? named k :=
  Dict.get?_addMissing [] named k

section

variable {ε : Type} {writeAlias : NodeId → Alias → Except ε String} {minimal : Bool}
  {i : Option TokenType} {es : Forest NodeId} {named : List (String × Json)}

/-- Under a name is what is written of the first sibling that has it. -/
theorem get?_writeEntries (h : writeEntries minimal writeAlias i es = .ok named) (k : String) :
    (∃ e v, es.find? (fun e => e.2.name = k) = some e ∧
      writeEntry minimal writeAlias i e.2 = .ok v ∧ Dict.get? named k = some v) ∨
    es.find? (fun e => e.2.name = k) = none ∧ Dict.get? named k = none := by
  induction es generalizing named with
  | nil =>
    cases h
    exact .inr ⟨rfl, rfl⟩
  | cons e es ih =>
    obtain ⟨order, e⟩ := e
    simp only [writeEntries, Outcome.bind_eq_ok_iff, Outcome.pure_eq_ok_iff] at h
    obtain ⟨v, hv, rest, hrest, rfl⟩ := h
    by_cases hk : e.name = k
    · exact .inl ⟨(order, e), v, by simp [hk], hv, by simp [Dict.get?, hk]⟩
    · simpa [Dict.get?, hk] using ih hrest

theorem exists_of_get?_writeEntries (h : writeEntries minimal writeAlias i es = .ok named)
    {k : String} {v : Json} (hv : Dict.get? named k = some v) :
    ∃ e ∈ es, e.2.name = k ∧ writeEntry minimal writeAlias i e.2 = .ok v := by
  obtain ⟨e, v', he, hwrite, hv'⟩ | ⟨-, hnone⟩ := get?_writeEntries h k
  · cases hv.symm.trans hv'
    exact ⟨e, List.mem_of_find?_eq_some he, by simpa using List.find?_some he, hwrite⟩
  · cases hv.symm.trans hnone

theorem get?_writeEntries_of_mem (h : writeEntries minimal writeAlias i es = .ok named)
    {e : String × Entry NodeId} (he : e ∈ es)
    (honly : ∀ e' ∈ es, e'.2.name = e.2.name → e'.2 = e.2) :
    ∃ v, writeEntry minimal writeAlias i e.2 = .ok v ∧ Dict.get? named e.2.name = some v := by
  obtain ⟨e', v, hfind, hwrite, hv⟩ | ⟨hnone, -⟩ := get?_writeEntries h e.2.name
  · rw [honly e' (List.mem_of_find?_eq_some hfind) (by simpa using List.find?_some hfind)] at hwrite
    exact ⟨v, hwrite, hv⟩
  · have hne := List.find?_eq_none.1 hnone e he
    rw [decide_eq_true rfl] at hne
    exact absurd rfl hne

/-! ## What is written of an entry -/

theorem writeEntry_token_eq_ok {id : NodeId} {t : Token} {v : Json} :
    writeEntry minimal writeAlias i (.token id t) = .ok v ↔
      ∃ raw, t.value.write (writeAlias id) = .ok raw ∧ v = .object
        (typeMember (tokenType minimal t i) ++ (Key.value, raw) :: noteMembers t.notes) := by
  rw [writeEntry, Outcome.bind_eq_ok_iff]
  simp only [Outcome.pure_eq_ok_iff, eq_comm (a := v)]

theorem writeEntry_group_eq_ok {id : NodeId} {g : Group} {v : Json} :
    writeEntry minimal writeAlias i (.group id g es) = .ok v ↔
      ∃ named, writeEntries minimal writeAlias (g.declaredType.or i) es = .ok named ∧
        v = .object (Dict.insertAll
          (Header.members ⟨writtenType minimal g.declaredType i, g.notes⟩) (byName named)) := by
  rw [writeEntry, Outcome.bind_eq_ok_iff]
  simp only [Outcome.pure_eq_ok_iff, eq_comm (a := v)]
  rfl

end

theorem sublist_keys_optionalMember {α : Type} (k : String) (f : α → Json) (a : Option α) :
    (Dict.keys (optionalMember k f a)).Sublist [k] := by
  cases a with
  | none => exact List.nil_sublist _
  | some a => exact List.Sublist.refl _

theorem sublist_keys_noteMembers (notes : Notes) : (Dict.keys (noteMembers notes)).Sublist
    [Key.description, Key.deprecated, Key.extensions] := by
  rw [noteMembers, Dict.keys, List.map_append, List.map_append]
  exact ((sublist_keys_optionalMember ..).append (sublist_keys_optionalMember ..)).append
    (sublist_keys_optionalMember ..)

theorem sublist_keys_members (h : Header) : (Dict.keys h.members).Sublist headerKeys := by
  rw [Header.members, Dict.keys, List.map_append]
  exact (sublist_keys_optionalMember ..).append (sublist_keys_noteMembers _)

theorem get?_value_members (h : Header) : Dict.get? h.members Key.value = none :=
  Dict.get?_eq_none_iff.2 fun hm => absurd ((sublist_keys_members h).subset hm) (by decide)

section

variable (t : Option TokenType) (raw : Json) (notes : Notes)

theorem nodup_keys_token :
    (Dict.keys (typeMember t ++ (Key.value, raw) :: noteMembers notes)).Nodup := by
  have hsub : (Dict.keys (typeMember t ++ (Key.value, raw) :: noteMembers notes)).Sublist
      ([Key.type] ++ Key.value :: [Key.description, Key.deprecated, Key.extensions]) := by
    rw [Dict.keys, List.map_append, List.map_cons]
    exact (sublist_keys_optionalMember ..).append ((sublist_keys_noteMembers _).cons_cons _)
  exact hsub.nodup (by decide)

theorem get?_type_token :
    Dict.get? (typeMember t ++ (Key.value, raw) :: noteMembers notes) Key.type =
      t.map fun t => .string t.name := by
  rcases t with _ | _ <;> rcases notes with ⟨_ | _, _ | _, _ | _⟩ <;> rfl

theorem get?_token_of_isChild {k : String} (hk : Name.isChild k) :
    Dict.get? (typeMember t ++ (Key.value, raw) :: noteMembers notes) k = none := by
  cases hget : Dict.get? (typeMember t ++ (Key.value, raw) :: noteMembers notes) k with
  | none => rfl
  | some v =>
    have hchildren := hasChildren_iff.2 ⟨k, v, Dict.mem_of_get? hget, hk⟩
    rw [not_hasChildren_token] at hchildren
    cases hchildren

end

section

variable (h : Header) (named : List (String × Json))

theorem get?_group (k : String) : Dict.get? (Dict.insertAll h.members (byName named)) k =
    (Dict.get? named k).or (Dict.get? h.members k) := by
  have hnodup : (Dict.keys (byName named)).Nodup := Dict.nodup_keys_addMissing (d := []) .nil named
  rw [Dict.get?_insertAll, Dict.get?_of_perm (List.reverse_perm _) hnodup, get?_byName]

theorem get?_group_of_isChild {k : String} (hk : Name.isChild k) :
    Dict.get? (Dict.insertAll h.members (byName named)) k = Dict.get? named k := by
  have hown : Dict.get? h.members k = none := Dict.get?_eq_none_iff.2 fun hm => by
    rw [not_isChild_own h.declaredType h.notes k hm] at hk
    cases hk
  rw [get?_group, hown, Option.or_none]

end

end Tree

theorem at?_concat {doc : Json} {path : List String} {ms : Members}
    (h : doc.at? path = some (.object ms)) (k : String) :
    doc.at? (path ++ [k]) = Dict.get? ms k := by
  rw [at?_append, h, Option.bind_some, at?_object_cons]
  cases Dict.get? ms k <;> rfl

/-! ## The document of a store -/

namespace Store

variable {s : Store}

section

variable (hc : s.Consistent) (ht : s.Titled)

theorem Grows.unique {above : List Node} {n : Node} {e e' : Entry NodeId} (h : s.Grows above n e)
    (h' : s.Grows above n e') : e = e' := by
  obtain ⟨t, hn, rfl⟩ | ⟨g, hn, rfl⟩ := h <;> obtain ⟨t', hn', rfl⟩ | ⟨g', hn', rfl⟩ := h' <;>
    cases hn.symm.trans hn' <;> rfl

theorem Grows.isEntry {above : List Node} {n : Node} {e : Entry NodeId} (h : s.Grows above n e) :
    n.content.isEntry := by
  obtain ⟨t, hn, -⟩ | ⟨g, hn, -⟩ := h <;> rw [hn] <;> rfl

include hc

section

variable {minimal : Bool} {i : Option TokenType} {p : Option NodeId} {above : List Node}
  {named : List (String × Json)} (ha : s.Around p above)
  (hnamed : writeEntries minimal s.aliasText i (s.forestBelow (above.map Node.id) p) = .ok named)

include ha hnamed

/-- What is written of the children of a parent is each of a child, under its name. -/
theorem exists_child_of_get? {k : String} {v : Json} (hv : Dict.get? named k = some v) :
    ∃ n ∈ s.children p, n.name = k ∧ ∃ e, s.Grows above n e ∧
      writeEntry minimal s.aliasText i e = .ok v := by
  obtain ⟨⟨order, e⟩, he, hname, hwrite⟩ := exists_of_get?_writeEntries hnamed hv
  obtain ⟨n, hn, -, hgrows⟩ := (mem_forestBelow_iff hc ha).1 he
  exact ⟨n, hn, hgrows.name_eq.symm.trans hname, e, hgrows, hwrite⟩

include ht

/-- Each child that is a group or token is written under its name. -/
theorem get?_of_child {n : Node} (hn : n ∈ s.children p) (hentry : n.content.isEntry) :
    ∃ e v, s.Grows above n e ∧ writeEntry minimal s.aliasText i e = .ok v ∧
      Dict.get? named n.name = some v := by
  obtain ⟨e, hgrows⟩ := s.exists_grows above (Node.isEntry_iff.1 hentry)
  have he := (mem_forestBelow_iff hc ha).2 ⟨n, hn, rfl, hgrows⟩
  obtain ⟨v, hwrite, hv⟩ := get?_writeEntries_of_mem hnamed he fun e' he' hname => by
    obtain ⟨m, hm, -, hgrows'⟩ := (mem_forestBelow_iff hc ha).1 he'
    have hsame : m = n := ht.eq_of_children hc hm hn hgrows'.isEntry hentry
      (hgrows'.name_eq.symm.trans (hname.trans hgrows.name_eq))
    exact (hsame ▸ hgrows').unique hgrows
  exact ⟨e, v, hgrows, hwrite, hgrows.name_eq ▸ hv⟩

end

/-- The type that comes down through groups, the nearest first. -/
def typeBelow (above : List Node) : Option TokenType :=
  (above.filter Node.isGroup).findSome? fun a => a.content.declaredType

omit hc in
theorem typeBelow_cons {n : Node} {g : Group} (hg : n.content = .group g) (above : List Node) :
    typeBelow (n :: above) = g.declaredType.or (typeBelow above) := by
  rw [typeBelow, Node.findSome?_passed, hg]
  rfl

theorem Around.typeBelow_eq {n : Node} {above : List Node} (ha : s.Around n.parent above)
    (hn : s.node? n.id = some n) : typeBelow above = s.inheritedType n := by
  rw [inheritedType, ha.ancestors_eq hc hn]
  rfl

section

variable {minimal : Bool} {doc : Json} (hdoc : Tree.write minimal s = .ok doc)

omit hc in
theorem exists_root_members (hdoc : Tree.write minimal s = .ok doc) : ∃ named,
    writeEntries minimal s.aliasText none (s.forest none) = .ok named ∧
      doc = .object (byName named) := by
  rw [Tree.write, writeBelow, Outcome.bind_eq_ok_iff] at hdoc
  obtain ⟨named, hnamed, he⟩ := hdoc
  exact ⟨named, hnamed, (Outcome.pure_eq_ok_iff.1 he).symm⟩

include ht hdoc

/-- At the path of the groups around a parent stands an object with its children; the induction is
on the groups, from the root down. -/
theorem Around.exists_members {p : Option NodeId} {above : List Node} (ha : s.Around p above) :
    ∃ ms named, doc.at? (pathOf above) = some (.object ms) ∧
      writeEntries minimal s.aliasText (typeBelow above) (s.forestBelow (above.map Node.id) p) =
        .ok named ∧ ∀ k, Name.isChild k → Dict.get? ms k = Dict.get? named k := by
  induction ha with
  | root =>
    obtain ⟨named, hnamed, rfl⟩ := exists_root_members hdoc
    exact ⟨_, named, rfl, hnamed, fun k _ => get?_byName named k⟩
  | @up id n above stored group rest ih =>
    obtain ⟨ms, named, hat, hnamed, hms⟩ := ih
    obtain rfl := hc.id_of_node? stored
    have hn := hc.mem_children_iff.2 ⟨stored, rfl⟩
    have hentry := Node.isEntry_iff.2 (.inr group)
    obtain ⟨g, hg⟩ := Node.isGroup_iff.1 group
    obtain ⟨e, v, hgrows, hwrite, hv⟩ := get?_of_child hc ht rest hnamed hn hentry
    obtain ⟨t, hcontent, -⟩ | ⟨g', hcontent, rfl⟩ := hgrows
    · cases hg.symm.trans hcontent
    cases hg.symm.trans hcontent
    obtain ⟨below, hbelow, rfl⟩ := writeEntry_group_eq_ok.1 hwrite
    have hchild := ht.isChild (mem_nodes_of_child hc hn) hentry
    rw [pathOf_cons, at?_concat hat, hms _ hchild, hv, typeBelow_cons hg]
    exact ⟨_, below, rfl, hbelow, fun k hk => get?_group_of_isChild _ _ hk⟩

/-- At the path of a node stands what is written of it. -/
theorem Around.exists_written {n : Node} {above : List Node} (ha : s.Around n.parent above)
    (hn : s.node? n.id = some n) (hentry : n.content.isEntry) :
    ∃ e v, s.Grows above n e ∧ writeEntry minimal s.aliasText (s.inheritedType n) e = .ok v ∧
      doc.at? (pathOf above ++ [n.name]) = some v := by
  obtain ⟨ms, named, hat, hnamed, hms⟩ := ha.exists_members hc ht hdoc
  have hmem := hc.mem_children_iff.2 ⟨hn, rfl⟩
  obtain ⟨e, v, hgrows, hwrite, hv⟩ := get?_of_child hc ht ha hnamed hmem hentry
  have hchild := ht.isChild (mem_nodes_of_child hc hmem) hentry
  exact ⟨e, v, hgrows, ha.typeBelow_eq hc hn ▸ hwrite, by rw [at?_concat hat, hms _ hchild, hv]⟩

/-- Only a group has entries below it. -/
theorem Stands.around_of_child {n : Node} {path : List String} (h : s.Stands n path) {u v : Json}
    (hu : doc.at? path = some u) {k : String} (hk : Name.isChild k) (hv : u.at? [k] = some v) :
    ∃ p above, s.Around p above ∧ path = pathOf above := by
  obtain ⟨hstored, hentry, above, ha, rfl⟩ := h
  obtain ⟨e, u', hgrows, hwrite, hat⟩ := ha.exists_written hc ht hdoc hstored hentry
  cases hu.symm.trans hat
  obtain ⟨t, -, rfl⟩ | ⟨g, hg, -⟩ := hgrows
  · obtain ⟨raw, -, rfl⟩ := writeEntry_token_eq_ok.1 hwrite
    rw [at?_object_cons, get?_token_of_isChild _ _ _ hk] at hv
    cases hv
  · have hn := hc.mem_children_iff.2 ⟨hstored, rfl⟩
    exact ⟨_, _, ha.child hc hn hg, (pathOf_cons n above).symm⟩

/-- Where the document has an entry, there stands a node; the induction is on the path, from its
end. -/
theorem exists_stands {path : List String} (hne : path ≠ []) (hnames : ∀ k ∈ path, Name.isChild k)
    {v : Json} (hv : doc.at? path = some v) : ∃ n, s.Stands n path := by
  induction path using List.reverseRecOn generalizing v with
  | nil => exact absurd rfl hne
  | append_singleton path k ih =>
    have hk := hnames k (List.mem_append_right _ (List.mem_singleton.2 rfl))
    obtain ⟨p, above, ha, rfl⟩ : ∃ p above, s.Around p above ∧ path = pathOf above := by
      by_cases htop : path = []
      · exact ⟨none, [], .root, htop⟩
      · rw [at?_append] at hv
        obtain ⟨u, hu, hv⟩ := Option.bind_eq_some_iff.1 hv
        obtain ⟨n, hstands⟩ := ih htop (fun k' hk' => hnames k' (List.mem_append_left _ hk')) hu
        exact hstands.around_of_child hc ht hdoc hu hk hv
    obtain ⟨ms, named, hat, hnamed, hms⟩ := ha.exists_members hc ht hdoc
    rw [at?_concat hat, hms k hk] at hv
    obtain ⟨n, hn, rfl, e, hgrows, -⟩ := exists_child_of_get? hc ha hnamed hv
    obtain ⟨hstored, rfl⟩ := hc.mem_children_iff.1 hn
    exact ⟨n, hstored, hgrows.isEntry, above, ha, rfl⟩

end

/-- The members are those of a node: a token's value as it is written, and none for a group. -/
def ShownBy (s : Store) (n : Node) (ms : Members) : Prop :=
  (∃ t raw, n.content = .token t ∧ t.value.write (s.aliasText n.id) = .ok raw ∧
    Dict.get? ms Key.value = some raw) ∨
  ∃ g, n.content = .group g ∧ Dict.get? ms Key.value = none

section

variable {minimal : Bool}

/-- A store whose tokens hold only ids of nodes is written. -/
theorem write_eq_ok_of_cited (hcited : s.Cited) : ∃ doc, Tree.write minimal s = .ok doc := by
  have hwritten : s.Written [none] (Tree.write minimal s) := .tree minimal
  refine Outcome.error?_eq_none_iff.1 (Option.eq_none_iff_forall_ne_some.2 fun e he => ?_)
  obtain ⟨n, id, ⟨⟨-, -, hstored, -⟩, t, hcontent, href⟩, hn, -⟩ := hwritten.error?_eq_some hc he
  have hmem := (hc.node?_eq_some_iff.1 hstored).1
  obtain ⟨m, hm⟩ := hcited n hmem t id hcontent href
  cases hn.symm.trans hm

include ht

/-- What is written of the children of a parent stands only under keys of entries. -/
theorem get?_eq_none_of_not_isChild {i : Option TokenType} {p : Option NodeId} {above : List Node}
    {named : List (String × Json)} (ha : s.Around p above)
    (hnamed : writeEntries minimal s.aliasText i (s.forestBelow (above.map Node.id) p) = .ok named)
    {k : String} (hk : Name.isChild k = false) : Dict.get? named k = none := by
  cases hv : Dict.get? named k with
  | none => rfl
  | some v =>
    obtain ⟨n, hn, rfl, e, hgrows, -⟩ := exists_child_of_get? hc ha hnamed hv
    rw [ht.isChild (mem_nodes_of_child hc hn) hgrows.isEntry] at hk
    cases hk

/-- A node is written as an object that shows it. -/
theorem Grows.shownBy {n : Node} {above : List Node} {e : Entry NodeId} (h : s.Grows above n e)
    (ha : s.Around n.parent above) (hn : s.node? n.id = some n) {i : Option TokenType} {v : Json}
    (hwrite : writeEntry minimal s.aliasText i e = .ok v) :
    ∃ ms, v = .object ms ∧ (Dict.keys ms).Nodup ∧ s.ShownBy n ms := by
  obtain ⟨t, hcontent, rfl⟩ | ⟨g, hcontent, rfl⟩ := h
  · obtain ⟨raw, hraw, rfl⟩ := writeEntry_token_eq_ok.1 hwrite
    exact ⟨_, rfl, nodup_keys_token _ _ _, .inl ⟨t, raw, hcontent, hraw, get?_value_token _ _ _⟩⟩
  · obtain ⟨named, hnamed, rfl⟩ := writeEntry_group_eq_ok.1 hwrite
    have hnodup := (sublist_keys_members
      ⟨writtenType minimal g.declaredType i, g.notes⟩).nodup (by decide)
    refine ⟨_, rfl, Dict.nodup_keys_insertAll_of_nodup hnodup _, .inr ⟨g, hcontent, ?_⟩⟩
    have hbelow := ha.child hc (hc.mem_children_iff.2 ⟨hn, rfl⟩) hcontent
    rw [get?_group, get?_eq_none_of_not_isChild hc ht hbelow hnamed (by decide), Option.none_or]
    exact get?_value_members _

end

end

/--
**Each node that hangs on a root by groups has its place in the document.** The
walk down from the top, or from a set or a context, ends, no deeper than the
store has nodes. If siblings have distinct names that may be keys of entries,
and every id that is held is that of a node, the store is written. Each group or
token with only groups above it up to a root then has an object at the path of
their names; it is the one object of that one node, and has a value just if the
node is a token, the token's own. There are no other entries. So there is none
for a node on a circle of parents or below one, for one without its parent or
below such a node, and for one below a token or a container.
-/
theorem write_places (hs : s.Reachable) :
    (∀ top, s.Outermost top → ∀ depth, s.size < depth →
      s.descend depth top = some (s.forest top)) ∧
    (∀ minimal, s.Titled → s.Cited → ∃ ms, Tree.write minimal s = .ok (.object ms) ∧
      (Dict.keys ms).Nodup ∧
      (∀ n path, s.Stands n path → ∃ ms', (Json.object ms).at? path = some (.object ms') ∧
        (Dict.keys ms').Nodup ∧ s.ShownBy n ms' ∧ (∀ m, s.Stands m path → m = n) ∧
        ∀ path', s.Stands n path' → path' = path) ∧
      ∀ path v, path ≠ [] → (∀ k ∈ path, Name.isChild k) → (Json.object ms).at? path = some v →
        ∃ n, s.Stands n path) ∧
    ∀ n path, s.Stands n path → ∀ a, s.LiesIn a n.id → (a = n ∨ a.isGroup) ∧
      ∀ p, a.parent = some p → (∃ b, s.node? p = some b) ∧ ¬ s.LiesIn a p := by
  have hc := hs.consistent
  refine ⟨fun top htop depth hdepth => ?_, fun minimal ht hcited => ?_,
    fun n path h a ha => h.sound ha⟩
  · exact descend_eq hc htop .here (by rwa [List.length_nil, Nat.add_zero])
  · obtain ⟨doc, hdoc⟩ : ∃ doc, Tree.write minimal s = .ok doc := write_eq_ok_of_cited hc hcited
    obtain ⟨named, -, hroot⟩ := exists_root_members hdoc
    subst hroot
    refine ⟨byName named, hdoc, Dict.nodup_keys_addMissing (d := []) .nil _, fun n path h => ?_,
      fun path v hne hnames hv => exists_stands hc ht hdoc hne hnames hv⟩
    obtain ⟨hstored, hentry, above, ha, he⟩ := id h
    obtain ⟨e, v, hgrows, hwrite, hat⟩ := ha.exists_written hc ht hdoc hstored hentry
    obtain ⟨ms, rfl, hnodup, hshown⟩ := hgrows.shownBy hc ht ha hstored hwrite
    exact ⟨ms, he ▸ hat, hnodup, hshown, fun m hm => hm.unique hc ht h,
      fun path' h' => h.path_unique h'⟩

/-- A group with its own token, and a token that refers to it; groups in a circle with a token below
them, a token without its parent, one below a token, and one in a set. -/
def knottedNodes : List Node :=
  let group (id : String) (parent : Option NodeId) (name : String) : Node :=
    ⟨⟨id⟩, parent, "a0", .group ⟨name, .none, none⟩⟩
  let token (id : String) (parent : Option NodeId) (name : String) (value : TokenValue) : Node :=
    ⟨⟨id⟩, parent, "a0", .token ⟨name, .none, none, value⟩⟩
  let one : TokenValue := .literal (.number (.integer 1))
  [group "space" none "space", token "own" (some ⟨"space"⟩) rootTokenName one,
    token "gap" none "gap" (.aliasTo (.id ⟨"own"⟩)), token "under" (some ⟨"gap"⟩) "under" one,
    group "x" (some ⟨"y"⟩) "x", group "y" (some ⟨"x"⟩) "y", token "inner" (some ⟨"x"⟩) "inner" one,
    token "lost" (some ⟨"nowhere"⟩) "lost" one,
    ⟨⟨"set"⟩, none, "a0", .set ⟨"set", none, none⟩⟩, token "held" (some ⟨"set"⟩) "held" one]

/-- The walk from the top ends, though one from the circle would not; what hangs on the circle, or
on nothing, has no place. -/
theorem write_places_knotted :
    ((ofNodes knottedNodes).Reachable ∧ (ofNodes knottedNodes).Titled ∧
      (ofNodes knottedNodes).Cited) ∧
    (ofNodes knottedNodes).descend 11 none = some ((ofNodes knottedNodes).forest none) ∧
    (ofNodes knottedNodes).descend 11 (some ⟨"x"⟩) = none ∧
    (∃ ms ms', Tree.write true (ofNodes knottedNodes) = .ok (.object ms) ∧
      (Json.object ms).at? ["space", "$root"] = some (.object ms') ∧
      Dict.get? ms' Key.value = some (.number (.integer 1))) ∧
    ∀ n path, (ofNodes knottedNodes).Stands n path → n.id ≠ ⟨"inner"⟩ ∧ n.id ≠ ⟨"lost"⟩ := by
  have hnodes : (ofNodes knottedNodes).nodes = knottedNodes := by decide +kernel
  have ht : (ofNodes knottedNodes).Titled := by
    refine ⟨?_, ?_⟩ <;> rw [hnodes]
    · unfold Name.Valid
      decide
    · decide
  have hcited : (ofNodes knottedNodes).Cited := by
    intro n hn t id hcontent href
    have hown : ∀ m ∈ knottedNodes, ∀ t ∈ m.token?, ∀ ref ∈ t.value.aliases,
        ref = .id ⟨"own"⟩ := by decide
    have htoken : t ∈ n.token? := by rw [Node.token?, hcontent]; rfl
    obtain rfl := Alias.id.inj (hown n (hnodes ▸ hn) t htoken _ href)
    exact Option.isSome_iff_exists.1 (by decide +kernel)
  have hspace : (ofNodes knottedNodes).Around (some ⟨"space"⟩) [knottedNodes[0]] :=
    .up (by decide +kernel) (by decide) .root
  have hown : (ofNodes knottedNodes).Stands knottedNodes[1] ["space", "$root"] :=
    ⟨by decide +kernel, by decide, _, hspace, by decide⟩
  have hx : (ofNodes knottedNodes).node? ⟨"x"⟩ = some knottedNodes[4] := by decide +kernel
  obtain ⟨hdepth, hwrite, hsound⟩ := write_places (reachable_ofNodes knottedNodes)
  obtain ⟨ms, hms, -, hplaces, -⟩ := hwrite true ht hcited
  obtain ⟨ms', hat, -, ⟨t, raw, ht', hraw, hvalue⟩ | ⟨g, hg, -⟩, -⟩ := hplaces _ _ hown
  · cases ht'
    cases hraw
    have hends := hdepth none (outermost_none _) 11 (by decide +kernel)
    refine ⟨⟨reachable_ofNodes _, ht, hcited⟩, hends, by decide +kernel,
      ⟨ms, ms', hms, hat, hvalue⟩, fun n path h => ⟨fun hid => ?_, fun hid => ?_⟩⟩
    · have hlies : (ofNodes knottedNodes).LiesIn knottedNodes[4] n.id :=
        hid ▸ .up (n := knottedNodes[6]) (by decide +kernel) rfl (.here hx)
      exact ((hsound n path h _ hlies).2 ⟨"y"⟩ rfl).2
        (.up (n := knottedNodes[5]) (by decide +kernel) rfl (.here hx))
    · have hlies : (ofNodes knottedNodes).LiesIn knottedNodes[7] n.id :=
        hid ▸ .here (by decide +kernel)
      obtain ⟨b, hb⟩ := ((hsound n path h _ hlies).2 ⟨"nowhere"⟩ rfl).1
      have hnone : (ofNodes knottedNodes).node? ⟨"nowhere"⟩ = none := by decide +kernel
      cases hnone.symm.trans hb
  · cases hg

end Store

end DesignTokens
