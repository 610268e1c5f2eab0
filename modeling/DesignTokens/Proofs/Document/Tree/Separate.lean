/-
The entries of a tree are read one by one, and none of them for another. The
nodes of a document are those of its entries, each read as a document of its
own, and so are its issues; only the keys of the topmost nodes are given for all
of them at once. And further down as well: whatever becomes of what is at a path,
nothing changes that is not at or below it (`SameOff`), for all that an entry
hands down is the type that it declares.
-/
import Mathlib.Data.List.Forall2
import DesignTokens.Proofs.Document.Tree.Located
import DesignTokens.Proofs.Document.Tree.ReadBack
import DesignTokens.Proofs.Store.Rekeyed

namespace DesignTokens

/-- The node with another key, if it stands at the top. -/
def Node.keyedAtTop (key : String) (n : Node) : Node :=
  if n.parent = none then n.withOrder key else n

section

variable {ι : Type} {names : List String} {parent : Option NodeId}

/-- The nodes of an entry among its siblings, if it was read. -/
def entryNodes (names : List String) (parent : Option NodeId) (order : String)
    (e : Option (Entry ι)) : List Node :=
  e.toList.flatMap fun e => (e.grove names order .nil).nodes parent

theorem entryNodes_token (order : String) (tag : ι) (t : Token) :
    entryNodes names parent order (some (.token tag t)) =
      [⟨⟨Pointer.format (names ++ [t.name])⟩, parent, order, .token t⟩] := rfl

theorem entryNodes_group (order : String) (tag : ι) (g : Group) (children : Forest ι) :
    entryNodes names parent order (some (.group tag g children)) =
      ⟨⟨Pointer.format (names ++ [g.name])⟩, parent, order, .group g⟩ ::
        (forestGrove (names ++ [g.name]) children).nodes
          (some ⟨Pointer.format (names ++ [g.name])⟩) := by
  simp [entryNodes, Entry.grove, Grove.nodes]

theorem Entry.nodes_grove (order : String) (next : Grove) (e : Entry ι) :
    (e.grove names order next).nodes parent =
      (e.grove names order .nil).nodes parent ++ next.nodes parent := by
  cases e <;> simp [Entry.grove, Grove.nodes]

/-- At the top, entries differ by their keys in nothing else. -/
theorem entryNodes_keyedAtTop (order order' : String) (e : Option (Entry ι)) :
    (entryNodes names none order' e).map (Node.keyedAtTop order) = entryNodes names none order e := by
  cases e with
  | none => rfl
  | some e =>
    cases e with
    | token => rfl
    | group tag g children =>
      have hbelow : ((forestGrove (names ++ [g.name]) children).nodes
          (some ⟨Pointer.format (names ++ [g.name])⟩)).map (Node.keyedAtTop order) = _ :=
        List.map_congr_left fun n hn => if_neg (Grove.parent_ne (Option.some_ne_none _).symm
          (fun i _ => (Option.some_ne_none i).symm) hn)
      rw [List.map_id'] at hbelow
      simp only [entryNodes_group, List.map_cons, hbelow]
      rfl

namespace Tree

theorem nodes_collect (names : List String) (parent : Option NodeId)
    (rs : List (String × Reading (Option (Entry ι)))) :
    (forestGrove names (collect rs).value).nodes parent =
      rs.flatMap fun r => entryNodes names parent r.1 r.2.value := by
  induction rs with
  | nil => rfl
  | cons r rs ih =>
    rw [value_collect, List.filterMap_cons, List.flatMap_cons, ← ih, value_collect]
    cases r.2.value with
    | none => rfl
    | some e =>
      rw [Option.map_some, forestGrove, Entry.nodes_grove]
      simp [entryNodes]

end Tree

end

namespace Tree

/-! ## The entries of a document -/

/-- The members of a root that are entries. -/
def rootEntries (ms : Members) : Members := ms.filter fun m => !Name.isReserved m.1

/-- What is reported of the other members of a root, where only `$schema` may stand. -/
def rootKeyIssues (ms : Members) : List Issue :=
  ((Dict.keys ms).filter fun k => Name.isReserved k && k ≠ Key.schema).map fun k =>
    ⟨[k], .unexpectedRootKey k⟩

theorem issues_checkRootKeys (ms : Members) : (checkRootKeys [] ms).issues = rootKeyIssues ms := by
  induction ms with
  | nil => rfl
  | cons m ms ih =>
    obtain ⟨k, raw⟩ := m
    rw [checkRootKeys, rootKeyIssues, Dict.keys_cons, List.filter_cons]
    split
    · rw [List.map_cons, ← rootKeyIssues, ← ih]
      rfl
    · exact ih

theorem rootChildren_eq (ms : Members) :
    ((readChildren [] none ms).filter fun c => c.1 ≠ rootTokenName) =
      (rootEntries ms).map fun m => (m.1, readEntry [m.1] none m.1 m.2) := by
  induction ms with
  | nil => rfl
  | cons m ms ih =>
    obtain ⟨k, raw⟩ := m
    have hroot : Name.isReserved rootTokenName := by decide
    rw [readChildren, rootEntries, List.filter_cons, ← rootEntries]
    cases hk : Name.isReserved k with
    | false =>
      have hne : k ≠ rootTokenName := fun he => by simp [he, hroot] at hk
      simpa [Name.isChild, hk, hne] using ih
    | true =>
      by_cases hr : k = rootTokenName <;> simpa [Name.isChild, hk, hr] using ih

theorem readRoot_eq (ms : Members) : readRoot [] ms = (do
    checkRootKeys [] ms
    collect ((OrderKey.initial (rootEntries ms).length).zip
      ((rootEntries ms).map fun m => readEntry [m.1] none m.1 m.2))) := by
  have hroots : ∀ c ∈ ((rootEntries ms).map fun m => (m.1, readEntry [m.1] none m.1 m.2)).tail,
      c.1 ≠ rootTokenName := by
    intro c hc
    rw [← rootChildren_eq] at hc
    simpa using (List.mem_filter.1 (List.mem_of_mem_tail hc)).2
  rw [readRoot, arrange_eq, rootChildren_eq, Option.toList_none, List.map_nil, List.nil_append,
    rootFirst_eq_self hroots, List.map_map, List.length_map, List.length_nil, Nat.zero_add]
  rfl

/-! ## Each entry by itself -/

/-- What a document gives with paths for ids, if nothing is replaced first or checked last. -/
def parsePlain (doc : Json) : Output := parse .path ⟨false, false⟩ doc

theorem parsePlain_object (ms : Members) : parsePlain (.object ms) =
    ⟨(forestGrove [] (readRoot [] ms).value).nodes none, (readRoot [] ms).issues⟩ := by
  rw [map_node_forestNodes none [] 0]
  exact congrArg (Output.mk _) (List.append_nil _)

theorem nodes_parsePlain (ms : Members) : (parsePlain (.object ms)).nodes =
    ((OrderKey.initial (rootEntries ms).length).zip (rootEntries ms)).flatMap fun x =>
      entryNodes [] none x.1 (readEntry [x.2.1] none x.2.1 x.2.2).value := by
  rw [parsePlain_object, readRoot_eq, Reading.value_bind, nodes_collect, List.zip_map_right,
    List.flatMap_map]
  rfl

theorem issues_parsePlain (ms : Members) : (parsePlain (.object ms)).issues =
    rootKeyIssues ms ++ (rootEntries ms).flatMap fun m =>
      (readEntry [m.1] none m.1 m.2).issues := by
  have hzip : ((OrderKey.initial (rootEntries ms).length).zip
      ((rootEntries ms).map fun m => readEntry [m.1] none m.1 m.2)).map Prod.snd = _ :=
    List.map_snd_zip (by simp)
  rw [parsePlain_object, readRoot_eq, Reading.issues_bind, issues_checkRootKeys, issues_collect,
    ← List.flatMap_map Prod.snd Reading.issues, hzip, List.flatMap_map]

section

variable {m : String × Json} (hm : Name.isReserved m.1 = false)

include hm

theorem rootEntries_singleton : rootEntries [m] = [m] := by
  simp [rootEntries, hm]

theorem nodes_parsePlain_singleton : ∃ key, (parsePlain (.object [m])).nodes =
    entryNodes [] none key (readEntry [m.1] none m.1 m.2).value := by
  obtain ⟨key, hkey⟩ := List.length_eq_one_iff.1 (OrderKey.length_initial 1)
  refine ⟨key, ?_⟩
  rw [nodes_parsePlain, rootEntries_singleton hm, List.length_singleton, hkey]
  simp

theorem issues_parsePlain_singleton :
    (parsePlain (.object [m])).issues = (readEntry [m.1] none m.1 m.2).issues := by
  rw [issues_parsePlain, rootEntries_singleton hm]
  simp [rootKeyIssues, Dict.keys, hm]

end

theorem isReserved_of_mem_rootEntries {ms : Members} {m : String × Json} (hm : m ∈ rootEntries ms) :
    Name.isReserved m.1 = false := by
  simpa using (List.mem_filter.1 hm).2

/-- The nodes of a document are those of its entries, under keys that are given for all of them. -/
theorem nodes_parsePlain_eq_flatMap (ms : Members) : (parsePlain (.object ms)).nodes =
    ((OrderKey.initial (rootEntries ms).length).zip (rootEntries ms)).flatMap fun x =>
      (parsePlain (.object [x.2])).nodes.map (Node.keyedAtTop x.1) := by
  rw [nodes_parsePlain]
  refine List.flatMap_congr fun x hx => ?_
  have hx := isReserved_of_mem_rootEntries (List.of_mem_zip hx).2
  obtain ⟨key, hkey⟩ := nodes_parsePlain_singleton hx
  rw [hkey, entryNodes_keyedAtTop]

/-- The issues of a document are those of the root's other keys, and then those of its entries. -/
theorem issues_parsePlain_eq_flatMap (ms : Members) : (parsePlain (.object ms)).issues =
    rootKeyIssues ms ++ (rootEntries ms).flatMap fun m => (parsePlain (.object [m])).issues := by
  rw [issues_parsePlain]
  congr 1
  refine List.flatMap_congr fun m hm => ?_
  rw [issues_parsePlain_singleton (isReserved_of_mem_rootEntries hm)]

/-! ## What is at a path, and all else -/

end Tree

/-- Values that differ in nothing but what is at a path of member names. -/
inductive Json.SameBut : Pointer.Path → Json → Json → Prop
  | here (v w : Json) : SameBut [] v w
  | member (before after : Members) {k : String} {path : Pointer.Path} {v w : Json}
      (h : SameBut path v w) :
      SameBut (k :: path) (.object (before ++ (k, v) :: after))
        (.object (before ++ (k, w) :: after))

/-- Whether a node is that of the entry at a path, or of one below it. -/
def Node.isAt (path : Pointer.Path) (n : Node) : Bool := path.isPrefixOf (Pointer.parse n.id.text)

/-- Whether an issue lies at a path or below it. -/
def Issue.isAt (path : Pointer.Path) (i : Issue) : Bool := path.isPrefixOf i.path

namespace Tree

/-- Nodes without those at a path. -/
def nodesOff (path : Pointer.Path) (ns : List Node) : List Node := ns.filter fun n => !n.isAt path

/-- Issues without those at a path. -/
def issuesOff (path : Pointer.Path) (is : List Issue) : List Issue := is.filter fun i => !i.isAt path

theorem issuesOff_append (path : Pointer.Path) (is js : List Issue) :
    issuesOff path (is ++ js) = issuesOff path is ++ issuesOff path js := by
  rw [issuesOff, List.filter_append]
  rfl

/-- Two readings of an entry under one name that give the same, but for what is at a path. -/
structure SameOff (path : Pointer.Path) (names : List String)
    (r r' : Reading (Option (Entry Pointer.Path))) : Prop where
  nodes : ∀ parent order, nodesOff path (entryNodes names parent order r.value) =
    nodesOff path (entryNodes names parent order r'.value)
  issues : issuesOff path r.issues = issuesOff path r'.issues

/-- Two siblings under one name that give the same, but for what is at a path. -/
def SiblingOff (path names : List String) (c c' : String × Reading (Option (Entry Pointer.Path))) :
    Prop :=
  c.1 = c'.1 ∧ SameOff path names c.2 c'.2

section

variable {path names : List String}

theorem SameOff.refl (r : Reading (Option (Entry Pointer.Path))) : SameOff path names r r :=
  ⟨fun _ _ => rfl, rfl⟩

theorem siblingsOff_refl (cs : List (String × Reading (Option (Entry Pointer.Path)))) :
    List.Forall₂ (SiblingOff path names) cs cs :=
  List.forall₂_same.2 fun c _ => ⟨rfl, .refl c.2⟩

/-- Siblings are chosen by their names, which are the same. -/
theorem siblingsOff_filter {cs cs' : List (String × Reading (Option (Entry Pointer.Path)))}
    (h : List.Forall₂ (SiblingOff path names) cs cs') (p : String → Bool) :
    List.Forall₂ (SiblingOff path names) (cs.filter fun c => p c.1) (cs'.filter fun c => p c.1) :=
  List.rel_filter (fun _ _ hc => iff_of_eq (congrArg (fun k => p k = true) hc.1)) h

theorem SameOff.bind {α : Type} (r : Reading α) {f f' : α → Reading (Option (Entry Pointer.Path))}
    (h : SameOff path names (f r.value) (f' r.value)) :
    SameOff path names (r >>= f) (r >>= f') := by
  refine ⟨h.nodes, ?_⟩
  rw [Reading.issues_bind, Reading.issues_bind, issuesOff_append, issuesOff_append, h.issues]

theorem sameOff_collect {rs rs' : List (Reading (Option (Entry Pointer.Path)))}
    (h : List.Forall₂ (SameOff path names) rs rs') (orders : List String) (parent : Option NodeId) :
    nodesOff path ((forestGrove names (collect (orders.zip rs)).value).nodes parent) =
        nodesOff path ((forestGrove names (collect (orders.zip rs')).value).nodes parent) ∧
      issuesOff path (collect (orders.zip rs)).issues =
        issuesOff path (collect (orders.zip rs')).issues := by
  simp only [nodes_collect, issues_collect, nodesOff, issuesOff, List.filter_flatMap]
  induction h generalizing orders with
  | nil => simp
  | cons hr _ ih =>
    cases orders with
    | nil => simp
    | cons order orders =>
      obtain ⟨hnodes, hissues⟩ := ih orders
      simp only [List.zip_cons_cons, List.flatMap_cons, hnodes, hissues]
      exact ⟨congrArg (· ++ _) (hr.nodes parent order), congrArg (· ++ _) hr.issues⟩

/-- Siblings that give the same off a path are arranged into what is the same off it. -/
theorem sameOff_arrange (own : Option (Reading (Option (Entry Pointer.Path))))
    {cs cs' : List (String × Reading (Option (Entry Pointer.Path)))}
    (h : List.Forall₂ (SiblingOff path names) cs cs') (parent : Option NodeId) :
    nodesOff path ((forestGrove names (arrange own cs).value).nodes parent) =
        nodesOff path ((forestGrove names (arrange own cs').value).nodes parent) ∧
      issuesOff path (arrange own cs).issues = issuesOff path (arrange own cs').issues := by
  have hall : List.Forall₂ (SiblingOff path names)
      (own.toList.map (rootTokenName, ·) ++ cs) (own.toList.map (rootTokenName, ·) ++ cs') :=
    List.rel_append (siblingsOff_refl _) h
  have hfirst : List.Forall₂ (SiblingOff path names)
      (rootFirst Prod.fst (own.toList.map (rootTokenName, ·) ++ cs))
      (rootFirst Prod.fst (own.toList.map (rootTokenName, ·) ++ cs')) :=
    List.rel_append (siblingsOff_filter hall fun k => k = rootTokenName)
      (siblingsOff_filter hall fun k => k ≠ rootTokenName)
  rw [arrange_eq, arrange_eq, h.length_eq]
  refine sameOff_collect ?_ _ parent
  rw [List.forall₂_map_left_iff, List.forall₂_map_right_iff]
  exact hfirst.imp fun _ _ hc => hc.2

theorem sameOff_group (place : Pointer.Path) (g : Group)
    (own : Option (Reading (Option (Entry Pointer.Path))))
    {cs cs' : List (String × Reading (Option (Entry Pointer.Path)))}
    (h : List.Forall₂ (SiblingOff path (names ++ [g.name])) cs cs') :
    SameOff path names
      (do return some (.group place g (← arrange own cs)))
      (do return some (.group place g (← arrange own cs'))) := by
  obtain ⟨-, hissues⟩ := sameOff_arrange own h none
  refine ⟨fun parent order => ?_, ?_⟩
  · obtain ⟨hbelow, -⟩ := sameOff_arrange own h (some ⟨Pointer.format (names ++ [g.name])⟩)
    simp only [Reading.value_bind, Reading.value_pure, entryNodes_group]
    rw [nodesOff, nodesOff, List.filter_cons, List.filter_cons, ← nodesOff, ← nodesOff, hbelow]
  · simpa only [Reading.issues_bind, Reading.issues_pure, List.append_nil] using hissues

end

/-! ## Entries at a path -/

theorem name_of_readEntry {place : Pointer.Path} {inherited : Option TokenType} {name : String}
    {raw : Json} {e : Entry Pointer.Path}
    (he : (readEntry place inherited name raw).value = some e) : e.name = name := by
  rcases readEntry_cases he with ⟨hname, h, raw', he⟩ | ⟨-, _, _, _, _, rfl, -⟩
  · exact (gives_readToken hname h raw' e he).1
  · rfl

/-- All that an entry gives is at the path of names to it. -/
theorem off_readEntry (names : List String) (name : String) (inherited : Option TokenType)
    (raw : Json) :
    (∀ parent order, nodesOff (names ++ [name]) (entryNodes names parent order
      (readEntry (names ++ [name]) inherited name raw).value) = []) ∧
    issuesOff (names ++ [name]) (readEntry (names ++ [name]) inherited name raw).issues = [] := by
  constructor
  · intro parent order
    rw [nodesOff, List.filter_eq_nil_iff]
    intro n hn
    obtain ⟨e, he, hn⟩ := List.mem_flatMap.1 hn
    have hname := name_of_readEntry (Option.mem_toList.1 he)
    have hids : n.id ∈ (forestGrove names [(order, e)]).ids := by
      rw [← Grove.map_id_nodes _ parent]
      exact List.mem_map_of_mem hn
    obtain ⟨top, htop, rest, hid⟩ := (pathed_forestGrove names [(order, e)]).below n.id hids
    rw [tops_forestGrove] at htop
    obtain rfl := List.mem_singleton.1 htop
    simp only [Entry.name_content, hname] at hid
    rw [Node.isAt, hid, Pointer.parse_format]
    simp
  · rw [issuesOff, List.filter_eq_nil_iff]
    intro i hi
    obtain ⟨rest, hpath, -⟩ := (located_readEntry (names ++ [name]) inherited name raw).issues i hi
    rw [Issue.isAt, hpath]
    simp

section

variable {k : String} (hk : Name.isChild k) (before after : Members) (v w : Json)

include hk

theorem Header.read_cons_child (place : Pointer.Path) (h : Header) :
    Header.read place h ((k, v) :: after) = Header.read place h after := by
  have hsingle : Header.read place h [(k, v)] = pure (some h) :=
    Header.read_children place h [(k, v)] (by simpa [Dict.keys] using hk)
  rw [← List.singleton_append, Header.read_append, hsingle, pure_bind]

/-- The header of an entry says nothing of what is under a child. -/
theorem Header.read_child (place : Pointer.Path) (h : Header) :
    Header.read place h (before ++ (k, v) :: after) =
      Header.read place h (before ++ (k, w) :: after) := by
  rw [Header.read_append, Header.read_append]
  simp only [Header.read_cons_child hk]

theorem get?_value_child : Dict.get? (before ++ (k, v) :: after) Key.value =
    Dict.get? (before ++ (k, w) :: after) Key.value := by
  have hne : k ≠ Key.value := Expansion.isChild_ne_value hk
  rw [Dict.get?_append, Dict.get?_append, Dict.get?, Dict.get?, if_neg hne, if_neg hne]

omit hk in
theorem contains_child (key : String) : Dict.contains (before ++ (k, v) :: after) key =
    Dict.contains (before ++ (k, w) :: after) key := by
  rw [Bool.eq_iff_iff, Dict.contains, Dict.contains, Dict.isSome_get?_iff, Dict.isSome_get?_iff]
  simp [Dict.keys]

omit hk in
theorem hasChildren_child : hasChildren (before ++ (k, v) :: after) =
    hasChildren (before ++ (k, w) :: after) := by
  simp [hasChildren]

end

theorem siblingsOff_readChildren {path names : List String} {k : String} {v w : Json} (hk : Name.isChild k)
    (before after : Members) (inherited : Option TokenType)
    (h : SameOff (names ++ [k] ++ path) names (readEntry (names ++ [k]) inherited k v)
      (readEntry (names ++ [k]) inherited k w)) :
    List.Forall₂ (SiblingOff (names ++ k :: path) names)
      (readChildren names inherited (before ++ (k, v) :: after))
      (readChildren names inherited (before ++ (k, w) :: after)) := by
  rw [List.append_assoc, List.singleton_append] at h
  rw [readChildren_append, readChildren_append, readChildren, readChildren, if_pos hk, if_pos hk]
  exact List.rel_append (siblingsOff_refl _) (.cons ⟨rfl, h⟩ (siblingsOff_refl _))

/-- What is read of an entry is the same off a path if all that differs is at the path. -/
theorem sameOff_readEntry {path : Pointer.Path} {v w : Json} (h : Json.SameBut path v w)
    (hpath : ∀ k ∈ path, Name.isChild k) (names : List String) (name : String)
    (inherited : Option TokenType) :
    SameOff (names ++ [name] ++ path) names (readEntry (names ++ [name]) inherited name v)
      (readEntry (names ++ [name]) inherited name w) := by
  induction h generalizing names name inherited with
  | here v w =>
    rw [List.append_nil]
    obtain ⟨hv, hiv⟩ := off_readEntry names name inherited v
    obtain ⟨hw, hiw⟩ := off_readEntry names name inherited w
    exact ⟨fun parent order => (hv parent order).trans (hw parent order).symm, hiv.trans hiw.symm⟩
  | @member before after k path v w h ih =>
    obtain ⟨hk, hpath⟩ := List.forall_mem_cons.1 hpath
    have hchildren (inherited : Option TokenType) :=
      siblingsOff_readChildren hk before after inherited (ih hpath (names ++ [name]) k inherited)
    -- the names, the headers, the values and the keys are the same, so both are read in one way
    rw [readEntry, readEntry]
    split
    · exact .refl _
    rw [Header.read_child hk before after v w, get?_value_child hk before after v w,
      contains_child before after v w, hasChildren_child before after v w]
    refine .bind _ ?_
    split
    · exact .refl _
    next h _ =>
    dsimp only
    split
    · exact .refl _
    split
    · exact .refl _
    have hgroup (own : Option (Reading (Option (Entry Pointer.Path)))) :=
      sameOff_group (names ++ [name]) ⟨name, h.notes, h.declaredType⟩ own
        (hchildren (h.declaredType.or inherited))
    split
    · exact .bind _ (hgroup _)
    · exact .bind _ (hgroup _)

/-- What a document gives is the same off a path of children if all that differs is at the path. -/
theorem sameOff_parsePlain {path : Pointer.Path} {v w : Json} (h : Json.SameBut path v w)
    (hpath : ∀ k ∈ path, Name.isChild k) :
    nodesOff path (parsePlain v).nodes = nodesOff path (parsePlain w).nodes ∧
      issuesOff path (parsePlain v).issues = issuesOff path (parsePlain w).issues := by
  cases h with
  | here v w =>
    have hnodes (ns : List Node) : nodesOff [] ns = [] :=
      List.filter_eq_nil_iff.2 fun n _ => by simp [Node.isAt]
    have hissues (is : List Issue) : issuesOff [] is = [] :=
      List.filter_eq_nil_iff.2 fun i _ => by simp [Issue.isAt]
    simp only [hnodes, hissues, and_self]
  | @member before after k path v w h =>
    obtain ⟨hk, hpath⟩ := List.forall_mem_cons.1 hpath
    have hchildren := siblingsOff_readChildren hk before after none (sameOff_readEntry h hpath [] k none)
    have hkeys : (checkRootKeys [] (before ++ (k, v) :: after)).issues =
        (checkRootKeys [] (before ++ (k, w) :: after)).issues := by
      simp only [issues_checkRootKeys, rootKeyIssues, Dict.keys, List.map_append, List.map_cons]
    obtain ⟨hnodes, hissues⟩ := sameOff_arrange none
      (siblingsOff_filter hchildren fun k => k ≠ rootTokenName) none
    rw [parsePlain_object, parsePlain_object]
    refine ⟨hnodes, ?_⟩
    rw [readRoot, readRoot, Reading.issues_bind, Reading.issues_bind, hkeys, issuesOff_append,
      issuesOff_append]
    exact congrArg _ hissues

/-- **Each entry of a document is read for itself.** The nodes are those of the entries, each read
as a document of its own, one after another, and so are the issues, behind those of the root's other
keys. Nothing that is at one path, fit to be read or not, changes what is yielded elsewhere. -/
theorem parsePlain_separate (ms : Members) :
    (parsePlain (.object ms)).nodes =
        ((OrderKey.initial (rootEntries ms).length).zip (rootEntries ms)).flatMap (fun x =>
          (parsePlain (.object [x.2])).nodes.map (Node.keyedAtTop x.1)) ∧
      (parsePlain (.object ms)).issues =
        rootKeyIssues ms ++ (rootEntries ms).flatMap (fun m => (parsePlain (.object [m])).issues) ∧
      ∀ path doc, Json.SameBut path (.object ms) doc → (∀ k ∈ path, Name.isChild k) →
        nodesOff path (parsePlain doc).nodes = nodesOff path (parsePlain (.object ms)).nodes ∧
        issuesOff path (parsePlain doc).issues = issuesOff path (parsePlain (.object ms)).issues := by
  refine ⟨nodes_parsePlain_eq_flatMap ms, issues_parsePlain_eq_flatMap ms, fun path doc h hpath => ?_⟩
  obtain ⟨hnodes, hissues⟩ := sameOff_parsePlain h hpath
  exact ⟨hnodes.symm, hissues.symm⟩

/-- A group with a value of its own, one child, something in the place of a second one, and a third
child; in front of it an entry under a bad name. -/
def hurtGroup (second : Json) : Json :=
  let number : Json := .object [(Key.type, .string "number"), (Key.value, .number (.integer 1))]
  .object [(Key.schema, .string "x"), ("$y", .null), ("no.name", number),
    ("g", .object [(Key.value, .string "{g.a}"), ("a", number), ("b", second), ("c", number)])]

/-- The second child is no object, or a group with a token; the ids and keys of the others stay. -/
theorem hurtGroup_separate :
    (Json.SameBut ["g", "b"] (hurtGroup .null) (hurtGroup (.object [("d", .object [])])) ∧
      (∀ k ∈ ["g", "b"], Name.isChild k) ∧
      (parsePlain (hurtGroup .null)).nodes.map (fun n => (n.id.text, n.order)) =
        [("/g", "a1"), ("/g/$root", "a0"), ("/g/a", "a1"), ("/g/c", "a3")] ∧
      (parsePlain (hurtGroup .null)).issues = [⟨["$y"], .unexpectedRootKey "$y"⟩,
        ⟨["no.name"], .badName (.forbidden "no.name" '.')⟩, ⟨["g", "b"], .entryNotAnObject⟩]) ∧
    nodesOff ["g", "b"] (parsePlain (hurtGroup (.object [("d", .object [])]))).nodes =
      nodesOff ["g", "b"] (parsePlain (hurtGroup .null)).nodes ∧
    issuesOff ["g", "b"] (parsePlain (hurtGroup (.object [("d", .object [])]))).issues =
      issuesOff ["g", "b"] (parsePlain (hurtGroup .null)).issues := by
  have hsame : Json.SameBut ["g", "b"] (hurtGroup .null) (hurtGroup (.object [("d", .object [])])) :=
    .member [_, _, _] [] (.member [_, _] [_] (.here _ _))
  have hpath : ∀ k ∈ ["g", "b"], Name.isChild k := by decide
  refine ⟨⟨hsame, hpath, by decide +kernel, by decide +kernel⟩, ?_⟩
  exact (parsePlain_separate _).2.2 ["g", "b"] _ hsame hpath

end Tree

end DesignTokens
