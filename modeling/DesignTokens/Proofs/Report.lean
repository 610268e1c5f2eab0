/-
What is reported of a document: every token under its name. Of tokens with one
name the last one alone is reported (`Report.get?_ofStore`), so the question is
whether names are distinct. In a tree document they are. In a resolver document
a name is that of a set, or of a modifier and a context, and a path, with
slashes between them; and as these names may hold slashes themselves, the set
`a/b` and the context `b` of `a` give their tokens the same names. Names that
hold none are told apart (`Report.tokens_reported`).
-/
import DesignTokens.Proofs.Document.Contents
import DesignTokens.Proofs.Document.Holder
import DesignTokens.Proofs.Document.Resolver.Forested
import DesignTokens.Report

namespace DesignTokens

namespace Report

/-! ## The members of a report -/

/-- A token's name and what is reported of it. -/
def tokenEntry (s : Store) (n : Node) : String × Json :=
  (reportName s n.id, entry (s.resolve n.id))

section

variable (s : Store)

theorem ofStore_eq : ofStore s = Dict.insertAll [] (s.tokens.map (tokenEntry s)) := by
  rw [ofStore, Store.resolveAll, Dict.insertAll, List.foldl_map, List.foldl_map]
  rfl

theorem keys_map_tokenEntry :
    Dict.keys (s.tokens.map (tokenEntry s)) = s.tokens.map fun n => reportName s n.id :=
  List.map_map ..

/-- Each name that a token has comes once, where the first token of that name stands. -/
theorem keys_ofStore :
    Dict.keys (ofStore s) = (s.tokens.map fun n => reportName s n.id).eraseDups := by
  rw [ofStore_eq, Dict.keys_insertAll, keys_map_tokenEntry]

/-- What is reported under a name is the entry of the last token of that name. -/
theorem get?_ofStore (name : String) :
    Dict.get? (ofStore s) name = Dict.get? (s.tokens.map (tokenEntry s)).reverse name := by
  rw [ofStore_eq, Dict.get?_insertAll, Dict.get?_nil, Option.or_none]

/-- There is one entry for each token just if names are distinct. -/
theorem ofStore_eq_map_iff : ofStore s = s.tokens.map (tokenEntry s) ↔
    (s.tokens.map fun n => reportName s n.id).Nodup := by
  constructor
  · intro h
    rw [← keys_map_tokenEntry, ← h, ofStore_eq]
    exact Dict.nodup_keys_insertAll _
  · intro h
    rw [ofStore_eq]
    exact Dict.insertAll_eq_append (keys_map_tokenEntry s ▸ h) fun _ _ => List.not_mem_nil

end

/-! ## Names -/

/-- A path behind the names of what it is in. -/
def qualified (containers : List String) (path : String) : String :=
  String.intercalate "/" (containers ++ [path])

@[simp] theorem qualified_nil (path : String) : qualified [] path = path :=
  String.intercalate_singleton

theorem qualified_cons (c : String) (containers : List String) (path : String) :
    qualified (c :: containers) path = c ++ "/" ++ qualified containers path :=
  String.intercalate_cons_of_ne_nil (by simp)

/-- A name without slashes is told apart from what follows it. -/
theorem qualified_cons_inj {c c' : String} (h : '/' ∉ c.toList) (h' : '/' ∉ c'.toList)
    {containers containers' : List String} {path path' : String}
    (he : qualified (c :: containers) path = qualified (c' :: containers') path') :
    c = c' ∧ qualified containers path = qualified containers' path' := by
  have hchars := congrArg String.toList he
  simp only [qualified_cons, String.toList_append, List.append_assoc] at hchars
  obtain ⟨hc, hrest⟩ := Text.append_cons_inj h h' hchars
  exact ⟨String.toList_injective hc, String.toList_injective hrest⟩

/-- A set, a modifier or a context around a node has a slash in its name. -/
def Slashed (s : Store) (n : Node) : Prop :=
  ∃ c ∈ s.ancestors n.id, isQualifier c ∧ '/' ∈ c.name.toList

theorem isQualifier_of_isGroup {n : Node} (h : n.isGroup) : isQualifier n = false := by
  obtain ⟨g, hg⟩ := Node.isGroup_iff.1 h
  rw [isQualifier, hg]

end Report

namespace Store

open Report

variable {s : Store}

theorem Holder.isQualifier {p : Option NodeId} {cs : List Node} (h : s.Holder p cs) {c : Node}
    (hc : c ∈ cs) : isQualifier c := by
  cases h with
  | root => cases hc
  | set _ content => rw [List.mem_singleton.1 hc, Report.isQualifier, content]
  | context _ content _ _ content' =>
    rcases List.mem_cons.1 hc with rfl | hc
    · rw [Report.isQualifier, content]
    · rw [List.mem_singleton.1 hc, Report.isQualifier, content']

variable (hc : s.Consistent)

include hc

/-- The name of what hangs on a holder: the names of the holder's nodes, and its path. -/
theorem Holder.reportName_eq {p : Option NodeId} {cs : List Node} (h : s.Holder p cs) {n : Node}
    (hn : s.HangsOn p n) :
    reportName s n.id = qualified (cs.map Node.name) (s.displayOf n.id) := by
  obtain ⟨hstored, above, hup⟩ := hn
  have habove : above.filter Report.isQualifier = [] := by
    rw [List.filter_eq_nil_iff]
    intro a ha
    simp [isQualifier_of_isGroup (hup.isGroup_of_mem ha)]
  have hcs : cs.reverse.filter Report.isQualifier = cs.reverse :=
    List.filter_eq_self.2 fun c hc => h.isQualifier (List.mem_reverse.1 hc)
  rw [reportName, h.ancestors_eq hc hstored hup, List.filter_append, habove, hcs, List.nil_append,
    ← List.map_reverse, List.reverse_reverse]
  rfl

theorem Holder.plain_of_not_slashed {p : Option NodeId} {cs : List Node} (h : s.Holder p cs)
    {n : Node} (hn : s.HangsOn p n) (hplain : ¬ Slashed s n) : ∀ c ∈ cs, '/' ∉ c.name.toList := by
  obtain ⟨hstored, above, hup⟩ := hn
  intro c hmem hslash
  refine hplain ⟨c, ?_, h.isQualifier hmem, hslash⟩
  rw [h.ancestors_eq hc hstored hup]
  exact List.mem_append_right _ (List.mem_reverse.2 hmem)

variable (hd : s.DistinctNames)

include hd

theorem DistinctNames.eq_of_stored {a b : Node} (ha : s.node? a.id = some a)
    (hb : s.node? b.id = some b) (hparent : a.parent = b.parent) (hname : a.name = b.name) :
    a = b :=
  hd a (hc.node?_eq_some_iff.1 ha).1 b (hc.node?_eq_some_iff.1 hb).1 hparent hname

/-- Holders whose names have no slashes are told apart by the names of what hangs on them. -/
theorem Holder.eq_of_qualified_eq {p q : Option NodeId} {c c' : Node} {cs cs' : List Node}
    (h : s.Holder p (c :: cs)) (h' : s.Holder q (c' :: cs'))
    (hplain : ∀ x ∈ c :: cs, '/' ∉ x.name.toList) (hplain' : ∀ x ∈ c' :: cs', '/' ∉ x.name.toList)
    {path path' : String} (he : qualified ((c :: cs).map Node.name) path =
      qualified ((c' :: cs').map Node.name) path') : p = q ∧ path = path' := by
  rw [List.map_cons, List.map_cons] at he
  obtain ⟨hname, hrest⟩ := qualified_cons_inj (hplain c (List.mem_cons_self ..))
    (hplain' c' (List.mem_cons_self ..)) he
  cases h with
  | set stored content top =>
    cases h' with
    | set stored' _ top' =>
      obtain rfl := hd.eq_of_stored hc stored stored' (top.trans top'.symm) hname
      exact ⟨rfl, hrest⟩
    | context stored' content' top' =>
      obtain rfl := hd.eq_of_stored hc stored stored' (top.trans top'.symm) hname
      cases content.symm.trans content'
  | @context m k choice name stored content top storedk contentk below =>
    cases h' with
    | set stored' content' top' =>
      obtain rfl := hd.eq_of_stored hc stored stored' (top.trans top'.symm) hname
      cases content.symm.trans content'
    | @context m' k' choice' name' stored' content' top' storedk' contentk' below' =>
      obtain rfl := hd.eq_of_stored hc stored stored' (top.trans top'.symm) hname
      simp only [List.map_cons, List.map_nil] at hrest
      obtain ⟨hnamek, hpath⟩ := qualified_cons_inj (hplain k (by simp)) (hplain' k' (by simp)) hrest
      obtain rfl := hd.eq_of_stored hc storedk storedk' (below.trans below'.symm) hnamek
      exact ⟨rfl, hpath⟩

end Store

namespace Forested

open Report

variable {ns : List Node} (hfit : ∀ n ∈ ns, n.content.isEntry → Name.Fit n.name) {a b : Node}
  (ha : a ∈ ns) (hb : b ∈ ns) (hta : a.isToken) (htb : b.isToken)
  (he : reportName (.ofNodes ns) a.id = reportName (.ofNodes ns) b.id)

include hfit hta htb

theorem eq_of_displayOf_eq {top : Content → Bool} (h : Forested top ns) {p : Option NodeId}
    {cs : List Node} (holder : (Store.ofNodes ns).Holder p cs)
    (ha : (Store.ofNodes ns).HangsOn p a) (hb : (Store.ofNodes ns).HangsOn p b)
    (he : (Store.ofNodes ns).displayOf a.id = (Store.ofNodes ns).displayOf b.id) : a = b := by
  have hfit' : ∀ n ∈ (Store.ofNodes ns).nodes, n.isToken ∨ n.isGroup → Name.Fit n.name :=
    fun n hn hentry => hfit n (h.mem_nodes_iff.1 hn) (Node.isEntry_iff.2 hentry)
  exact h.distinctNames.eq_of_displayOf_eq (Store.reachable_ofNodes ns).consistent hfit'
    holder.outermost ha hb hta htb he

include ha hb he

/-- In a tree document no two tokens have one name. -/
theorem eq_of_reportName_eq (h : Forested Content.isEntry ns) : a = b := by
  have hc := (Store.reachable_ofNodes ns).consistent
  have hangsa := (h.hangsOn a ha).2
  have hangsb := (h.hangsOn b hb).2
  rw [Store.Holder.reportName_eq hc .root hangsa, Store.Holder.reportName_eq hc .root hangsb,
    List.map_nil, qualified_nil, qualified_nil] at he
  exact eq_of_displayOf_eq hfit hta htb h .root hangsa hangsb he

/-- In a resolver document two tokens have one name only if what holds one of them has a slash in
its name. -/
theorem eq_or_slashed_of_reportName_eq (h : Forested Content.isItem ns) :
    a = b ∨ Slashed (.ofNodes ns) a ∨ Slashed (.ofNodes ns) b := by
  have hc := (Store.reachable_ofNodes ns).consistent
  obtain ⟨p, c, cs, holder, hangs⟩ := h.exists_holder a ha (Node.isEntry_iff.2 (.inl hta))
  obtain ⟨q, c', cs', holder', hangs'⟩ := h.exists_holder b hb (Node.isEntry_iff.2 (.inl htb))
  by_cases hsa : Slashed (.ofNodes ns) a
  · exact .inr (.inl hsa)
  by_cases hsb : Slashed (.ofNodes ns) b
  · exact .inr (.inr hsb)
  rw [holder.reportName_eq hc hangs, holder'.reportName_eq hc hangs'] at he
  obtain ⟨rfl, hpath⟩ := holder.eq_of_qualified_eq hc h.distinctNames holder'
    (holder.plain_of_not_slashed hc hangs hsa) (holder'.plain_of_not_slashed hc hangs' hsb) he
  exact .inl (eq_of_displayOf_eq hfit hta htb h holder hangs hangs' hpath)

end Forested

/-! ## Documents -/

namespace Report

/-- The nodes that are read of a document of either format. -/
def nodesOf (doc : Json) : List Node :=
  match Format.of doc with
  | .tree => (Tree.parse (.sequential "n") .all doc).nodes
  | .resolver => (Resolver.parse (.sequential "n") .all doc).2.nodes

theorem store_ofDocument (doc : Json) : (Loaded.ofDocument doc).store = .ofNodes (nodesOf doc) := by
  rw [Loaded.ofDocument, nodesOf]
  cases Format.of doc <;> rfl

section

variable {doc : Json} (hdoc : doc.WellFormed)

include hdoc

theorem nodup_ids_nodesOf : ((nodesOf doc).map Node.id).Nodup := by
  rw [nodesOf]
  cases Format.of doc with
  | tree => exact (Tree.forested_parse (.sequential "n") .all hdoc).distinct
  | resolver => exact (Resolver.forested_parse (.sequential "n") .all hdoc).distinct

/-- No two tokens of a document have one name, unless it is a resolver document with a slash in
the name of what holds one of them. -/
theorem eq_or_slashed {a b : Node} (ha : a ∈ nodesOf doc) (hb : b ∈ nodesOf doc)
    (hta : a.isToken) (htb : b.isToken)
    (he : reportName (.ofNodes (nodesOf doc)) a.id = reportName (.ofNodes (nodesOf doc)) b.id) :
    a = b ∨ Format.of doc = .resolver ∧
      (Slashed (.ofNodes (nodesOf doc)) a ∨ Slashed (.ofNodes (nodesOf doc)) b) := by
  obtain ⟨hfit, hfit'⟩ := fit_of_mem_parse (.sequential "n") .all hdoc
  unfold nodesOf at ha hb he ⊢
  cases hformat : Format.of doc with
  | tree =>
    simp only [hformat] at ha hb he
    exact .inl (Forested.eq_of_reportName_eq hfit ha hb hta htb he
      (Tree.forested_parse (.sequential "n") .all hdoc))
  | resolver =>
    simp only [hformat] at ha hb he
    exact (Forested.eq_or_slashed_of_reportName_eq hfit' ha hb hta htb he
      (Resolver.forested_parse (.sequential "n") .all hdoc)).imp_right (⟨rfl, ·⟩)

/-- What is around a node of a document is a node of the document. -/
theorem not_slashed (hplain : ∀ c ∈ nodesOf doc, isQualifier c → '/' ∉ c.name.toList) (n : Node) :
    ¬ Slashed (.ofNodes (nodesOf doc)) n := by
  rintro ⟨c, hancestor, hqualifier, hslash⟩
  have hc := (Store.reachable_ofNodes (nodesOf doc)).consistent
  have hmem := hc.mem_nodes_of_mem_ancestors hancestor
  rw [Store.nodes_ofNodes (nodup_ids_nodesOf hdoc)] at hmem
  exact hplain c hmem hqualifier hslash

end

/--
**The tokens that are reported.** Of each text that is JSON there is a report.
It has one entry under each name of a token, that of the last token of this name;
so it has an entry for every token of the document just if their names are
distinct. Two tokens have one name only in a resolver document, and only if one
of them is in a set, or a modifier and a context, with a slash in its name.
Elsewhere every token is reported.
-/
theorem tokens_reported {text : String} {doc : Json} (h : Json.parse? text = some doc) :
    let s := Store.ofNodes (nodesOf doc)
    let tokens := (nodesOf doc).filter Node.isToken
    ∃ ms issues, resolve text = .ok ⟨.object ms, issues⟩ ∧
      Dict.keys ms = (tokens.map fun n => reportName s n.id).eraseDups ∧
      (∀ name, Dict.get? ms name = Dict.get? (tokens.map (tokenEntry s)).reverse name) ∧
      (ms = tokens.map (tokenEntry s) ↔ (tokens.map fun n => reportName s n.id).Nodup) ∧
      (∀ a ∈ tokens, ∀ b ∈ tokens, reportName s a.id = reportName s b.id →
        a = b ∨ Format.of doc = .resolver ∧ (Slashed s a ∨ Slashed s b)) ∧
      ((Format.of doc = .tree ∨ ∀ c ∈ nodesOf doc, isQualifier c → '/' ∉ c.name.toList) →
        ms = tokens.map (tokenEntry s)) := by
  intro s tokens
  have hdoc := Json.wellFormed_of_parse? h
  have htokens : s.tokens = tokens := by
    rw [Store.tokens, Store.nodes_ofNodes (nodup_ids_nodesOf hdoc)]
  have hresolve : resolve text = .ok ⟨.object (ofStore s), (Loaded.ofDocument doc).issues⟩ := by
    have hstore : (Loaded.ofDocument doc).store = s := store_ofDocument doc
    rw [resolve, load, h, ← hstore]
    rfl
  have hslashed : ∀ a ∈ tokens, ∀ b ∈ tokens, reportName s a.id = reportName s b.id →
      a = b ∨ Format.of doc = .resolver ∧ (Slashed s a ∨ Slashed s b) := by
    intro a ha b hb he
    obtain ⟨ha, hta⟩ := List.mem_filter.1 ha
    obtain ⟨hb, htb⟩ := List.mem_filter.1 hb
    exact eq_or_slashed hdoc ha hb hta htb he
  have heach := ofStore_eq_map_iff s
  rw [htokens] at heach
  refine ⟨ofStore s, _, hresolve, htokens ▸ keys_ofStore s, htokens ▸ get?_ofStore s, heach,
    hslashed, fun hplain => heach.2 ?_⟩
  have hnodup : tokens.Nodup := (nodup_ids_nodesOf hdoc).of_map.filter _
  refine hnodup.map_on fun a ha b hb he => (hslashed a ha b hb he).resolve_right ?_
  rintro ⟨hformat, hslash⟩
  rcases hplain with htree | hplain
  · rw [htree] at hformat
    cases hformat
  · exact hslash.elim (not_slashed hdoc hplain a) (not_slashed hdoc hplain b)

/-- A group with a value of its own, above a token with a slash in its name. -/
def slashedTree : Json :=
  .object [("a", .object [(Key.type, .string "number"), (Key.value, .number (.integer 1)),
    ("b/c", .object [(Key.value, .string "\x7ba\x7d")])])]

/-- Both tokens of the tree are reported. -/
theorem tokens_reported_slashedTree :
    Json.parse? slashedTree.compact = some slashedTree ∧
    ∃ ms issues, resolve slashedTree.compact = .ok ⟨.object ms, issues⟩ ∧
      Dict.keys ms = ["a", "a.b/c"] ∧
      ms = ((nodesOf slashedTree).filter Node.isToken).map
        (tokenEntry (.ofNodes (nodesOf slashedTree))) := by
  have h : Json.parse? slashedTree.compact = some slashedTree := by decide +kernel
  have htree : Format.of slashedTree = .tree := by decide
  obtain ⟨ms, issues, hresolve, hkeys, -, -, -, heach⟩ := tokens_reported h
  exact ⟨h, ms, issues, hresolve, hkeys.trans (by decide +kernel), heach (.inl htree)⟩

/-- A token in a set, and one of the same name in the only context of a modifier. -/
def twice (set modifier context : String) : Json :=
  let number (value : Int) : Json := .array [.object [("n", .object
    [(Key.type, .string "number"), (Key.value, .number (.integer value))])]]
  .object [("version", .string resolverVersion), ("resolutionOrder", .array [
    .object [("type", .string "set"), ("name", .string set), ("sources", number 1)],
    .object [("type", .string "modifier"), ("name", .string modifier),
      ("contexts", .object [(context, number 2)])]])]

/-- The set `a/b` and the context `b` of `a` give their tokens one name, and the second token
alone is reported. -/
theorem twice_reported_once :
    let doc := twice "a/b" "a" "b"
    Json.parse? doc.compact = some doc ∧
    ((nodesOf doc).filter Node.isToken).map
      (fun n => reportName (.ofNodes (nodesOf doc)) n.id) = ["a/b/n", "a/b/n"] ∧
    resolve doc.compact = .ok ⟨.object [("a/b/n", .object
      [("type", .string "number"), ("value", .number (.integer 2))])], []⟩ := by
  intro doc
  have hparse : Json.parse? doc.compact = some doc := by decide +kernel
  refine ⟨hparse, by decide +kernel, ?_⟩
  rw [resolve, load, hparse]
  show Except.ok (Report.mk (.object (ofStore (Loaded.ofDocument doc).store)) _) = _
  have hstore : ofStore (Loaded.ofDocument doc).store = [("a/b/n", .object
      [("type", .string "number"), ("value", .number (.integer 2))])] := by decide +kernel
  have hissues : (Loaded.ofDocument doc).issues = [] := by decide +kernel
  rw [hstore, hissues]

end Report

end DesignTokens
