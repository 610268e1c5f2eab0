/-
What dotted paths find. Where siblings have distinct names, names find a token
below a parent just if they call it: by its own name in the groups of the
others, or by the groups alone if it is the `$root` token of the last
(`DistinctNames.tokenBelow?_eq_some_iff`). So the tokens that hang on one parent
are told apart by their paths (`DistinctNames.eq_of_displayOf_eq`).

In a store of groups and tokens alone the only layer is the root level, whoever
looks. There the path of a token leads back to it, and no other token has it
(`tokens_found_by_path`).
-/
import DesignTokens.Proofs.Document.Name
import DesignTokens.Proofs.List
import DesignTokens.Proofs.Store.Rooted
import DesignTokens.Resolution.Basic

namespace DesignTokens

namespace Store

/-- Names from a parent on that call a token: by its name, or as the own token of a group. -/
def Calls (s : Store) (i : Option TokenType) (p : Option NodeId) (names : List String)
    (n : Node) : Prop :=
  n.isToken ∧ ∃ j, (∃ around, names = around ++ [n.name] ∧ s.asNamespace.Leads i p around n j) ∨
    names ≠ [] ∧ n.name = rootTokenName ∧ s.asNamespace.Leads i p names n j

theorem calls_cons_iff {s : Store} {i : Option TokenType} {p : Option NodeId} {name : String}
    {names : List String} (hne : names ≠ []) {n : Node} :
    s.Calls i p (name :: names) n ↔ ∃ b g, b ∈ s.children p ∧ b.content = .group g ∧
      g.name = name ∧ s.Calls (g.declaredType.or i) (some b.id) names n := by
  constructor
  · rintro ⟨htoken, j, ⟨around, hnames, hleads⟩ | ⟨-, hroot, hleads⟩⟩
    · cases around with
      | nil => exact absurd (List.cons.inj hnames).2 hne
      | cons a around =>
        obtain ⟨ha, hnames⟩ := List.cons.inj hnames
        obtain ⟨b, g, hb, hg, hname, hleads⟩ := Namespace.Leads.cons_iff.1 hleads
        exact ⟨b, g, hb, hg, hname.trans ha.symm, htoken, j, .inl ⟨around, hnames, hleads⟩⟩
    · obtain ⟨b, g, hb, hg, hname, hleads⟩ := Namespace.Leads.cons_iff.1 hleads
      exact ⟨b, g, hb, hg, hname, htoken, j, .inr ⟨hne, hroot, hleads⟩⟩
  · rintro ⟨b, g, hb, hg, rfl, htoken, j, ⟨around, rfl, hleads⟩ | ⟨-, hroot, hleads⟩⟩
    · exact ⟨htoken, j, .inl ⟨g.name :: around, rfl, .through hb hg hleads⟩⟩
    · exact ⟨htoken, j, .inr ⟨List.cons_ne_nil _ _, hroot, .through hb hg hleads⟩⟩

theorem tokenBelow?_cons {s : Store} {p : Option NodeId} {name : String} {names : List String}
    (hne : names ≠ []) : s.tokenBelow? p (name :: names) =
      ((s.children p).find? fun n => n.isGroup && n.name = name).bind fun g =>
        s.tokenBelow? (some g.id) names := by
  cases names with
  | nil => exact absurd rfl hne
  | cons a names =>
    rw [tokenBelow?]
    · cases (s.children p).find? fun n => n.isGroup && n.name = name <;> rfl
    · exact List.cons_ne_nil a names

theorem Leads.namesTo_eq {s : Store} (hc : s.Consistent) {names : List String} {n : Node} {j : Option TokenType}
    (hn : s.Leads names n j) : s.namesTo n =
      if names.isEmpty || n.name ≠ rootTokenName then names ++ [n.name] else names := by
  rw [namesTo, (hn.stored hc).2.1, List.reverse_reverse, List.isEmpty_reverse]

/-- The names that call a token are names of groups and tokens. -/
theorem Calls.fit {s : Store} (hc : s.Consistent)
    (hfit : ∀ n ∈ s.nodes, n.isToken ∨ n.isGroup → Name.Fit n.name) {i : Option TokenType}
    {p : Option NodeId} {names : List String} {n : Node} (hn : s.Calls i p names n) :
    ∀ name ∈ names, Name.Fit name := by
  have hgroups : ∀ {names j}, s.asNamespace.Leads i p names n j →
      ∀ name ∈ names, Name.Fit name := by
    intro names j hleads name hname
    obtain ⟨q, b, g, hb, hg, he⟩ := hleads.exists_group hname
    rw [← he, ← Node.name_of_group hg]
    exact hfit b (hc.mem_children_iff_mem_nodes.1 hb).1 (.inr (Node.isGroup_iff.2 ⟨g, hg⟩))
  obtain ⟨htoken, j, ⟨around, rfl, hleads⟩ | ⟨-, -, hleads⟩⟩ := hn
  · intro name hname
    rcases List.mem_append.1 hname with hname | hname
    · exact hgroups hleads name hname
    · obtain ⟨q, hq⟩ := hleads.exists_holds
      have hmem : n ∈ s.nodes := (hc.mem_children_iff_mem_nodes.1 hq).1
      exact List.mem_singleton.1 hname ▸ hfit n hmem (.inl htoken)
  · exact hgroups hleads

theorem Calls.segmentsOf_join {s : Store} (hc : s.Consistent)
    (hfit : ∀ n ∈ s.nodes, n.isToken ∨ n.isGroup → Name.Fit n.name) {i : Option TokenType}
    {p : Option NodeId} {names : List String} {n : Node} (hcalls : s.Calls i p names n) :
    Alias.segmentsOf (Text.join Alias.separator names) = names := by
  refine Alias.segmentsOf_join ?_ (hcalls.fit hc hfit)
  rintro rfl
  obtain ⟨-, j, ⟨around, hnames, -⟩ | ⟨hne, -⟩⟩ := hcalls
  · simp at hnames
  · exact hne rfl

/-- An alias by path: for an id it is the path of its node. -/
def spell (s : Store) : Alias → Alias
  | .path dotted => .path dotted
  | .id id => .path ((s.path? id).getD "")

/-! ## Distinct names -/

/-- Siblings have distinct names. -/
def DistinctNames (s : Store) : Prop :=
  ∀ a ∈ s.nodes, ∀ b ∈ s.nodes, a.parent = b.parent → a.name = b.name → a = b

theorem Plain.distinctNames {s : Store} (h : s.Plain) : s.DistinctNames := h.distinct

section

variable {s : Store} (h : s.DistinctNames) (hc : s.Consistent)

include h hc

theorem DistinctNames.eq_of_name_eq {p : Option NodeId} {a b : Node} (ha : a ∈ s.children p)
    (hb : b ∈ s.children p) (hn : a.name = b.name) : a = b := by
  rw [hc.mem_children_iff_mem_nodes] at ha hb
  exact h a ha.1 b hb.1 (ha.2.trans hb.2.symm) hn

theorem DistinctNames.nodup_names_children (p : Option NodeId) :
    ((s.children p).map Node.name).Nodup :=
  (hc.nodup_children p).map_on fun _ ha _ hb hname => h.eq_of_name_eq hc ha hb hname

/-- A child is found by its name, if it is of the kind looked for. -/
theorem DistinctNames.find?_child {p : Option NodeId} {kind : Node → Bool} {name : String} {n : Node} :
    (s.children p).find? (fun n => kind n && n.name = name) = some n ↔
      n ∈ s.children p ∧ kind n ∧ n.name = name := by
  rw [find?_eq_some_iff_of_unique]
  · simp
  · intro a ha b hb hqa hqb
    simp only [Bool.and_eq_true, decide_eq_true_eq] at hqa hqb
    exact h.eq_of_name_eq hc ha hb (hqa.2.trans hqb.2.symm)

theorem DistinctNames.tokenBelow?_singleton {i : Option TokenType} {p : Option NodeId} {name : String}
    {n : Node} : s.tokenBelow? p [name] = some n ↔ s.Calls i p [name] n := by
  have hcalls : s.Calls i p [name] n ↔ (n ∈ s.children p ∧ n.isToken ∧ n.name = name) ∨
      ∃ b, (b ∈ s.children p ∧ b.isGroup ∧ b.name = name) ∧
        n ∈ s.children (some b.id) ∧ n.isToken ∧ n.name = rootTokenName := by
    constructor
    · rintro ⟨htoken, j, ⟨around, hnames, hleads⟩ | ⟨-, hroot, hleads⟩⟩
      · obtain ⟨rfl, hname⟩ := List.append_eq_singleton_iff.1 hnames.symm |>.resolve_right (by simp)
        exact .inl ⟨(Namespace.Leads.nil_iff.1 hleads).1, htoken, (List.cons.inj hname).1⟩
      · obtain ⟨b, g, hb, hg, hname, hleads⟩ := Namespace.Leads.cons_iff.1 hleads
        exact .inr ⟨b, ⟨hb, Node.isGroup_iff.2 ⟨g, hg⟩, (Node.name_of_group hg).trans hname⟩,
          (Namespace.Leads.nil_iff.1 hleads).1, htoken, hroot⟩
    · rintro (⟨hn, htoken, rfl⟩ | ⟨b, ⟨hb, hgroup, rfl⟩, hn, htoken, hroot⟩)
      · exact ⟨htoken, i, .inl ⟨[], rfl, .here hn⟩⟩
      · obtain ⟨g, hg⟩ := Node.isGroup_iff.1 hgroup
        refine ⟨htoken, g.declaredType.or i, .inr ⟨List.cons_ne_nil _ _, hroot, ?_⟩⟩
        rw [Node.name_of_group hg]
        exact .through hb hg (.here hn)
  rw [hcalls, tokenBelow?]
  split
  · next t ht =>
    obtain ⟨hmem, htoken, hname⟩ := (h.find?_child hc).1 ht
    rw [Option.some.injEq]
    constructor
    · rintro rfl
      exact .inl ⟨hmem, htoken, hname⟩
    · rintro (⟨hn, -, hname'⟩ | ⟨b, ⟨hb, hgroup, hname'⟩, -⟩)
      · exact h.eq_of_name_eq hc hmem hn (hname.trans hname'.symm)
      · obtain rfl := h.eq_of_name_eq hc hmem hb (hname.trans hname'.symm)
        obtain ⟨g, hg⟩ := Node.isGroup_iff.1 hgroup
        obtain ⟨t, ht⟩ := Node.isToken_iff.1 htoken
        cases hg.symm.trans ht
  · next hnone =>
    simp only [Option.bind_eq_some_iff, h.find?_child hc, ownToken?]
    refine ⟨.inr, fun hor => hor.resolve_left fun ⟨hn, htoken, hname⟩ => ?_⟩
    have hfound := (h.find?_child hc).2 ⟨hn, htoken, hname⟩
    rw [hnone] at hfound
    cases hfound

/-- The names that find a token below a parent are those that call it. -/
theorem DistinctNames.tokenBelow?_eq_some_iff {i : Option TokenType} {p : Option NodeId}
    {names : List String} {n : Node} : s.tokenBelow? p names = some n ↔ s.Calls i p names n := by
  induction names generalizing i p with
  | nil =>
    refine iff_of_false (by simp [tokenBelow?]) ?_
    rintro ⟨-, j, ⟨around, hnames, -⟩ | ⟨hne, -⟩⟩
    · simp at hnames
    · exact hne rfl
  | cons name names ih =>
    by_cases hne : names = []
    · rw [hne]
      exact h.tokenBelow?_singleton hc
    · rw [tokenBelow?_cons hne, calls_cons_iff hne, Option.bind_eq_some_iff]
      constructor
      · rintro ⟨b, hb, hn⟩
        obtain ⟨hb, hgroup, hname⟩ := (h.find?_child hc).1 hb
        obtain ⟨g, hg⟩ := Node.isGroup_iff.1 hgroup
        exact ⟨b, g, hb, hg, (Node.name_of_group hg).symm.trans hname, ih.1 hn⟩
      · rintro ⟨b, g, hb, hg, hname, hn⟩
        exact ⟨b, (h.find?_child hc).2 ⟨hb, Node.isGroup_iff.2 ⟨g, hg⟩,
          (Node.name_of_group hg).trans hname⟩, ih.2 hn⟩

end

/-! ## The path of a token -/

section

variable {s : Store} (hc : s.Consistent)

include hc

/-- The path of a token calls it from above the groups that it names. -/
theorem HangsOn.calls {top : Option NodeId} (htop : s.Outermost top) {n : Node}
    (h : s.HangsOn top n) (htoken : n.isToken) (i : Option TokenType) :
    s.Calls i top (s.namesTo n) n := by
  obtain ⟨hn, above, hup⟩ := h
  obtain ⟨j, hleads⟩ := hup.leads hc i (hc.mem_children_iff.2 ⟨hn, rfl⟩)
  rw [namesTo, hup.groupNames_eq hc htop hn]
  split
  · exact ⟨htoken, j, .inl ⟨_, rfl, hleads⟩⟩
  · next hroot =>
    simp only [Bool.or_eq_true, List.isEmpty_iff, decide_eq_true_eq, not_or, not_not] at hroot
    exact ⟨htoken, j, .inr ⟨by simpa using hroot.1, hroot.2, hleads⟩⟩

/-- Where siblings have distinct names, what a token is shown as tells it apart from the others
below the same parent, however deep they lie. -/
theorem DistinctNames.eq_of_displayOf_eq (h : s.DistinctNames)
    (hfit : ∀ n ∈ s.nodes, n.isToken ∨ n.isGroup → Name.Fit n.name) {top : Option NodeId}
    (htop : s.Outermost top) {a b : Node} (ha : s.HangsOn top a) (hb : s.HangsOn top b)
    (hta : a.isToken) (htb : b.isToken) (he : s.displayOf a.id = s.displayOf b.id) : a = b := by
  have hfound : ∀ n, s.HangsOn top n → n.isToken →
      s.tokenBelow? top (Alias.segmentsOf (s.displayOf n.id)) = some n := by
    intro n hn htoken
    have hcalls := hn.calls hc htop htoken none
    rw [displayOf, path?, hn.1, Option.map_some, Option.getD_some, hcalls.segmentsOf_join hc hfit]
    exact (h.tokenBelow?_eq_some_iff hc).2 hcalls
  have hfa := hfound a ha hta
  rw [he, hfound b hb htb] at hfa
  exact (Option.some.inj hfa).symm

end

/-! ## Stores of groups and tokens -/

section

variable {s : Store} (h : s.Plain) (hc : s.Consistent)

include h hc

/-- Whoever looks sees the root level alone. -/
theorem Plain.layers_eq (from? : Option NodeId) : s.layers from? = [none] := by
  have hroots : (s.children none).flatMap (s.containerLayers (s.activeContexts from?) []) = [] := by
    rw [List.flatMap_eq_nil_iff]
    intro n hn
    have hkind := h.kinds n (hc.mem_children_iff_mem_nodes.1 hn).1
    rw [Node.isToken_iff, Node.isGroup_iff] at hkind
    rw [containerLayers]
    rcases hkind with ⟨t, ht⟩ | ⟨g, hg⟩
    · rw [ht]
    · rw [hg]
  simp only [layers, hroots, List.map_nil]

theorem Plain.tokenAt?_eq (dotted : String) (from? : Option NodeId) : s.tokenAt? dotted from? =
    if (Alias.segmentsOf dotted).isEmpty || (Alias.segmentsOf dotted).any String.isEmpty then none
    else s.tokenBelow? none (Alias.segmentsOf dotted) := by
  rw [tokenAt?, lookup?, h.layers_eq hc]
  simp

/-! ## Paths of nodes -/

/-- The path of a token calls it. -/
theorem Plain.calls_namesTo {n : Node} (hn : n ∈ s.nodes) (htoken : n.isToken) :
    s.Calls none none (s.namesTo n) n := by
  obtain ⟨above, ha⟩ := h.rooted n hn
  have hangs : s.HangsOn none n := ⟨hc.node?_eq_some_iff.2 ⟨hn, rfl⟩, above, ha.upTo⟩
  exact hangs.calls hc s.outermost_none htoken none

/-- The path of a group calls its own token. -/
theorem Plain.calls_own {g : Node} (hg : g ∈ s.nodes) (hgroup : g.isGroup)
    (hname : g.name ≠ rootTokenName) {n : Node} (hown : s.ownToken? g.id = some n) :
    s.Calls none none (s.namesTo g) n := by
  obtain ⟨hn, htoken, hroot⟩ := (h.distinctNames.find?_child hc).1 hown
  obtain ⟨names, hleads⟩ := h.leads hc hg
  obtain ⟨gr, hgr⟩ := Node.isGroup_iff.1 hgroup
  have hsnoc := hleads.snoc hgr hn
  rw [hleads.namesTo_eq hc, if_pos (by simp [hname]), Node.name_of_group hgr]
  exact ⟨htoken, _, .inr ⟨by simp, hroot, hsnoc⟩⟩

variable (hfit : ∀ n ∈ s.nodes, Name.Fit n.name)

include hfit

/-- A dotted path finds the token that its names call. -/
theorem Plain.tokenAt?_eq_some_iff {dotted : String} {from? : Option NodeId} {n : Node} :
    s.tokenAt? dotted from? = some n ↔ s.Calls none none (Alias.segmentsOf dotted) n := by
  rw [h.tokenAt?_eq hc, ← h.distinctNames.tokenBelow?_eq_some_iff hc]
  split
  · next hbad =>
    refine iff_of_false (by simp) fun hn => ?_
    have hcalls := (h.distinctNames.tokenBelow?_eq_some_iff hc (i := none)).1 hn
    rw [Bool.or_eq_true, List.any_eq_true, List.isEmpty_iff] at hbad
    rcases hbad with hnil | ⟨name, hname, hempty⟩
    · rw [hnil] at hn
      cases hn
    · rw [(hcalls.fit hc (fun m hm _ => hfit m hm) name hname).1] at hempty
      cases hempty
  · rfl

/-- The path of a token leads back to it. -/
theorem Plain.tokenAt?_path {n : Node} (hn : n ∈ s.nodes) (htoken : n.isToken) :
    ∃ dotted, s.path? n.id = some dotted ∧ ∀ from?, s.tokenAt? dotted from? = some n := by
  have hcalls := h.calls_namesTo hc hn htoken
  refine ⟨_, by rw [path?, hc.node?_eq_some_iff.2 ⟨hn, rfl⟩, Option.map_some], fun from? => ?_⟩
  rw [h.tokenAt?_eq_some_iff hc hfit, hcalls.segmentsOf_join hc fun m hm _ => hfit m hm]
  exact hcalls

/-- An alias that has a target is spelled by a path that calls the target. -/
theorem Plain.of_target (hgroups : ∀ n ∈ s.nodes, n.isGroup → n.name ≠ rootTokenName)
    {ref : Alias} {holder : NodeId} {n : Node} (ht : s.target ref holder = .ok n) :
    ∃ dotted, s.spell ref = .path dotted ∧ s.Calls none none (Alias.segmentsOf dotted) n := by
  cases ref with
  | path dotted =>
    simp only [target] at ht
    split at ht
    · next m hm =>
      cases ht
      exact ⟨dotted, rfl, (h.tokenAt?_eq_some_iff hc hfit).1 hm⟩
    · cases ht
  | id id =>
    simp only [target] at ht
    cases hm : s.node? id with
    | none =>
      rw [hm] at ht
      cases ht
    | some m =>
      obtain ⟨hmem, hid⟩ := hc.node?_eq_some_iff.1 hm
      have hcalls : s.Calls none none (s.namesTo m) n := by
        simp only [hm] at ht
        by_cases htoken : m.isToken
        · rw [if_pos htoken] at ht
          cases ht
          exact h.calls_namesTo hc hmem htoken
        · have hgroup := (h.kinds m hmem).resolve_left htoken
          rw [if_neg htoken, if_pos hgroup] at ht
          cases hown : s.ownToken? id with
          | none =>
            rw [hown] at ht
            cases ht
          | some a =>
            rw [hown] at ht
            cases ht
            exact h.calls_own hc hmem hgroup (hgroups m hmem hgroup) (hid ▸ hown)
      refine ⟨_, by rw [spell, path?, hm, Option.map_some, Option.getD_some], ?_⟩
      rwa [hcalls.segmentsOf_join hc fun m hm _ => hfit m hm]

end

end Store

/-! ## Paths as addresses -/

/-- The name of the node is one that it may have, or it is the `$root` token of a parent. -/
def Node.WellNamed (n : Node) : Prop :=
  Name.Valid n.name ∨ n.isToken ∧ n.name = rootTokenName ∧ n.parent ≠ none

theorem Node.WellNamed.fit {n : Node} (h : n.WellNamed) : Name.Fit n.name := by
  rcases h with hvalid | ⟨-, hroot, -⟩
  · exact hvalid.fit
  · exact hroot ▸ Name.fit_root

namespace Store

/-- **Paths are addresses.** In a store of groups and tokens, however it was
made, in which every node hangs on a root by groups, siblings have distinct
names and all names are ones that a document allows, every token has a path, by
which it is found wherever one looks from. So no two tokens have one path. -/
theorem tokens_found_by_path {s : Store} (hs : s.Reachable) (h : s.Plain)
    (hnames : ∀ n ∈ s.nodes, n.WellNamed) :
    (∀ n ∈ s.tokens, ∃ dotted, s.path? n.id = some dotted ∧
      ∀ from?, s.tokenAt? dotted from? = some n) ∧
    ∀ a ∈ s.tokens, ∀ b ∈ s.tokens, s.path? a.id = s.path? b.id → a = b := by
  have hfound : ∀ n ∈ s.tokens, ∃ dotted, s.path? n.id = some dotted ∧
      ∀ from?, s.tokenAt? dotted from? = some n := by
    intro n hn
    obtain ⟨hmem, htoken⟩ := List.mem_filter.1 hn
    exact h.tokenAt?_path hs.consistent (fun m hm => (hnames m hm).fit) hmem htoken
  refine ⟨hfound, fun a ha b hb hpath => ?_⟩
  obtain ⟨dotted, hda, hfa⟩ := hfound a ha
  obtain ⟨dotted', hdb, hfb⟩ := hfound b hb
  cases hda.symm.trans (hpath.trans hdb)
  exact Option.some.inj ((hfa none).symm.trans (hfb none))

/-- A group in a group, both with a token of their own, and tokens that have the
names of groups further up. -/
def nestedNodes : List Node :=
  let token (id : String) (parent : Option NodeId) (name : String) : Node :=
    ⟨⟨id⟩, parent, "a0", .token ⟨name, .none, none, .aliasTo (.path "x")⟩⟩
  [⟨⟨"outer"⟩, none, "a0", .group ⟨"ink", .none, none⟩⟩,
    ⟨⟨"inner"⟩, some ⟨"outer"⟩, "a0", .group ⟨"soft", .none, none⟩⟩,
    token "own" (some ⟨"outer"⟩) rootTokenName, token "ownInner" (some ⟨"inner"⟩) rootTokenName,
    token "leaf" (some ⟨"inner"⟩) "ink", token "top" none "soft"]

/-- The paths of nested tokens, by which they are found. -/
theorem found_by_path_nestedNodes :
    ((ofNodes nestedNodes).Reachable ∧ (ofNodes nestedNodes).Plain ∧
      ∀ n ∈ (ofNodes nestedNodes).nodes, n.WellNamed) ∧
    (∀ n ∈ (ofNodes nestedNodes).tokens, ∃ dotted, (ofNodes nestedNodes).path? n.id = some dotted ∧
      ∀ from?, (ofNodes nestedNodes).tokenAt? dotted from? = some n) ∧
    (ofNodes nestedNodes).tokens.map (fun n => (ofNodes nestedNodes).path? n.id) =
      [some "ink", some "ink.soft", some "ink.soft.ink", some "soft"] := by
  have hnodes : (ofNodes nestedNodes).nodes = nestedNodes := by decide +kernel
  have houter : (ofNodes nestedNodes).Around (some ⟨"outer"⟩) [nestedNodes[0]] :=
    .up (by decide +kernel) (by decide) .root
  have hinner : (ofNodes nestedNodes).Around (some ⟨"inner"⟩) [nestedNodes[1], nestedNodes[0]] :=
    .up (by decide +kernel) (by decide) houter
  have hplain : (ofNodes nestedNodes).Plain := by
    refine ⟨?_, ?_, ?_⟩ <;> rw [hnodes]
    · decide
    · have hparent : ∀ n ∈ nestedNodes, n.parent = none ∨ n.parent = some ⟨"outer"⟩ ∨
          n.parent = some ⟨"inner"⟩ := by decide
      intro n hn
      rcases hparent n hn with hp | hp | hp <;> rw [hp]
      · exact ⟨_, .root⟩
      · exact ⟨_, houter⟩
      · exact ⟨_, hinner⟩
    · decide
  have hnames : ∀ n ∈ (ofNodes nestedNodes).nodes, n.WellNamed := by
    rw [hnodes]
    unfold Node.WellNamed Name.Valid
    decide
  have hs := reachable_ofNodes nestedNodes
  exact ⟨⟨hs, hplain, hnames⟩, (tokens_found_by_path hs hplain hnames).1, by decide +kernel⟩

end Store

end DesignTokens
