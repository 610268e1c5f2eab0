/-
Nothing of a tree is left out in silence. Wherever the reader passes an entry
over, and wherever it drops a member that says something of one, it reports it;
so of a document without issues every entry is a node, under the path to it, with
all that is said of it, and a group with a value has its own token besides.

`Wanted` says from the document alone at which paths nodes must stand, and
`Answers` that those of an entry stand just there. The header of a node is
compared as it would be written (`headerMembers`).
-/
import DesignTokens.Proofs.Document.Tree.Forested
import DesignTokens.Proofs.Document.Tree.Separate

namespace DesignTokens

namespace Tree

/-! ## Headers -/

/-- The keys of an entry that say something of it besides its value. -/
def headerKeys : List String := [Key.type, Key.description, Key.deprecated, Key.extensions]

/-- What a header is written as. -/
def Header.members (h : Header) : Members := typeMember h.declaredType ++ noteMembers h.notes

/-- What the header of a node is written as. -/
def headerMembers : Content → Members
  | .token t => (Header.mk t.declaredType t.notes).members
  | .group g => (Header.mk g.declaredType g.notes).members
  | _ => []

/-- What a header says under a key, as it is written. -/
def Header.member? (h : Header) (key : String) : Option Json :=
  if key = Key.type then h.declaredType.map fun t => .string t.name
  else if key = Key.description then h.notes.description.map .string
  else if key = Key.deprecated then h.notes.deprecated.map Deprecated.toJson
  else if key = Key.extensions then h.notes.extensions.map .object
  else none

theorem get?_optionalMember {α : Type} (k : String) (f : α → Json) (a : Option α) (key : String) :
    Dict.get? (Json.optionalMember k f a) key = if key = k then a.map f else none := by
  cases a with
  | none => simp [Json.optionalMember]
  | some a => simp [Json.optionalMember, Dict.get?, eq_comm]

/-- Each member of a header is found under its key, for no two keys are the same. -/
theorem Header.get?_members (h : Header) (key : String) :
    Dict.get? h.members key = h.member? key := by
  simp only [Header.members, typeMember, noteMembers, Dict.get?_append, get?_optionalMember,
    Header.member?]
  split
  · next hk =>
    subst hk
    simp +decide
  split
  · next hk =>
    subst hk
    simp +decide
  split
  · next hk =>
    subst hk
    simp +decide
  · simp

theorem name_of_ofName? {s : String} {t : TokenType} (h : TokenType.ofName? s = some t) :
    t.name = s := by
  have hword := List.find?_some h
  exact of_decide_eq_true hword

theorem forall_mem_headerKeys {P : String → Prop} : (∀ key ∈ headerKeys, P key) ↔
    P Key.type ∧ P Key.description ∧ P Key.deprecated ∧ P Key.extensions := by
  simp [headerKeys]

/-- A member that is added without an issue is there, and the others are as they were. -/
theorem Header.get?_add {h : Header} {place : Pointer.Path} {k : String} {raw : Json}
    (hclean : (h.add place k raw).issues = []) : ∃ h', (h.add place k raw).value = some h' ∧
      ∀ key ∈ headerKeys,
        Dict.get? h'.members key = if key = k then some raw else Dict.get? h.members key := by
  have hissue {a : Option Header} {path : Pointer.Path} {cause : Cause} {P : Prop} :
      (Reading.withIssue a path cause).issues = [] → P := nofun
  revert hclean
  unfold Header.add
  simp only [forall_mem_headerKeys, Header.get?_members]
  split
  · next hk =>
    subst hk
    split
    · split
      · next t ht => exact fun _ => ⟨_, rfl, by simp +decide [Header.member?, name_of_ofName? ht]⟩
      · exact hissue
    · exact hissue
  split
  · next hk =>
    subst hk
    split
    · exact fun _ => ⟨_, rfl, by simp +decide [Header.member?]⟩
    · exact hissue
  split
  · next hk =>
    subst hk
    split
    · exact fun _ => ⟨_, rfl, by simp +decide [Header.member?, Deprecated.toJson]⟩
    · exact fun _ => ⟨_, rfl, by simp +decide [Header.member?, Deprecated.toJson]⟩
    · exact hissue
  split
  · next hk =>
    subst hk
    split
    · exact fun _ => ⟨_, rfl, by simp +decide [Header.member?]⟩
    · exact hissue
  split
  · next ht hd hm he hk =>
    exact fun _ => ⟨_, rfl, by
      simp only [if_neg (Ne.symm ht), if_neg (Ne.symm hd), if_neg (Ne.symm hm), if_neg (Ne.symm he),
        and_self]⟩
  · exact hissue

/-- Where nothing is wrong with a header, it says just what the members say. -/
theorem Header.get?_read {place : Pointer.Path} {h : Header} {ms : Members}
    (hn : (Dict.keys ms).Nodup) (hclean : (Header.read place h ms).issues = []) :
    ∃ h', (Header.read place h ms).value = some h' ∧ ∀ key ∈ headerKeys,
      Dict.get? h'.members key = (Dict.get? ms key).or (Dict.get? h.members key) := by
  induction ms generalizing h with
  | nil => exact ⟨h, rfl, fun _ _ => rfl⟩
  | cons m ms ih =>
    obtain ⟨k, raw⟩ := m
    rw [Dict.keys_cons, List.nodup_cons] at hn
    rw [Header.read] at hclean ⊢
    split at hclean
    · next hk =>
      obtain ⟨hadd, hrest⟩ := Reading.issues_bind_eq_nil_iff.1 hclean
      obtain ⟨h₁, hh₁, hget₁⟩ := Header.get?_add hadd
      rw [hh₁] at hrest
      obtain ⟨h', hh', hget⟩ := ih hn.2 hrest
      refine ⟨h', ?_, fun key hkey => ?_⟩
      · rw [if_pos hk, bind_of_value hh₁]
        exact hh'
      · rw [hget key hkey, hget₁ key hkey, Dict.get?]
        by_cases he : key = k
        · subst he
          simp [Dict.get?_eq_none_iff.2 hn.1]
        · rw [if_neg he, if_neg (Ne.symm he)]
    · next hk =>
      obtain ⟨h', hh', hget⟩ := ih hn.2 hclean
      refine ⟨h', by rwa [if_neg hk], fun key hkey => ?_⟩
      have hreserved : ∀ key ∈ headerKeys, Name.isReserved key := by decide
      have hne : k ≠ key := fun he => hk (he ▸ hreserved key hkey)
      rw [hget key hkey, Dict.get?, if_neg hne]

/-- Without an issue the header of an entry is what its members say. -/
theorem Header.get?_read_empty {place : Pointer.Path} {ms : Members} (hn : (Dict.keys ms).Nodup)
    (hclean : (Header.read place .empty ms).issues = []) :
    ∃ h, (Header.read place .empty ms).value = some h ∧
      ∀ key ∈ headerKeys, Dict.get? h.members key = Dict.get? ms key := by
  obtain ⟨h, hh, hget⟩ := Header.get?_read hn hclean
  refine ⟨h, hh, fun key hkey => ?_⟩
  have hempty : ∀ key ∈ headerKeys, Dict.get? Header.empty.members key = none := by decide
  rw [hget key hkey, hempty key hkey, Option.or_none]

/-! ## What is wanted of a document -/

/-- A node says what an object does: it is a token if the object has a value and no children, and a
group otherwise, with the header that the object has. -/
structure Carries (ms : Members) (n : Node) : Prop where
  isToken : n.isToken = (Dict.contains ms Key.value && !hasChildren ms)
  isGroup : n.isGroup = !(Dict.contains ms Key.value && !hasChildren ms)
  header : ∀ key ∈ headerKeys, Dict.get? (headerMembers n.content) key = Dict.get? ms key

/-- What a node stands for: an entry of a document, or the value of a group. -/
inductive Role where
  | entry (raw : Json)
  | own

/-- Whether a node is what it stands for. -/
def Role.Fits : Role → Node → Prop
  | entry raw, n => ∃ ms, raw = .object ms ∧ Carries ms n
  | own, n => n.isToken

/-- The nodes that must stand below an entry, itself included, each at its path and in its role. -/
inductive Wanted : Json → Pointer.Path → Role → Prop
  | entry (raw : Json) : Wanted raw [] (.entry raw)
  | own {ms : Members} (hv : Key.value ∈ Dict.keys ms) (hc : hasChildren ms) :
      Wanted (.object ms) [rootTokenName] .own
  | child {ms : Members} {k : String} {raw : Json} {path : Pointer.Path} {role : Role}
      (h : (k, raw) ∈ ms) (hk : Name.isChild k) (hw : Wanted raw path role) :
      Wanted (.object ms) (k :: path) role

/-- The nodes of an entry are those that are wanted of what it was read from, and no others. -/
structure Answers (place : Pointer.Path) (raw : Json) (ns : List Node) : Prop where
  sound : ∀ n ∈ ns, ∃ path role, Wanted raw path role ∧
    n.id = ⟨Pointer.format (place ++ path)⟩ ∧ role.Fits n
  complete : ∀ path role, Wanted raw path role → ∃ n ∈ ns,
    n.id = ⟨Pointer.format (place ++ path)⟩ ∧ role.Fits n

/-! ## Entries -/

theorem readToken_clean {place : Pointer.Path} {inherited : Option TokenType} {name : String}
    {h : Header} {raw : Json} (hclean : (readToken place inherited name h raw).issues = []) :
    ∃ value, (readToken place inherited name h raw).value =
      some (.token place ⟨name, h.notes, h.declaredType, value⟩) := by
  unfold readToken at hclean ⊢
  split at hclean
  · next value hv => exact ⟨value, rfl⟩
  · cases hclean

section

variable {own : Option (Reading (Option (Entry Pointer.Path)))}
  {cs : List (String × Reading (Option (Entry Pointer.Path)))} {names : List String}
  {parent : Option NodeId}

theorem mem_nodes_arrange {n : Node}
    (h : n ∈ (forestGrove names (arrange own cs).value).nodes parent) :
    ∃ r order, (own = some r ∨ ∃ k, (k, r) ∈ cs) ∧ n ∈ entryNodes names parent order r.value := by
  rw [arrange_eq, nodes_collect] at h
  obtain ⟨⟨order, r⟩, hr, hn⟩ := List.mem_flatMap.1 h
  exact ⟨r, order, mem_arranged_iff.1 ⟨order, hr⟩, hn⟩

/-- The nodes of each sibling are there, under the key that it is given. -/
theorem nodes_subset_arrange {r : Reading (Option (Entry Pointer.Path))}
    (h : own = some r ∨ ∃ k, (k, r) ∈ cs) : ∃ order, entryNodes names parent order r.value ⊆
      (forestGrove names (arrange own cs).value).nodes parent := by
  obtain ⟨order, hr⟩ := mem_arranged_iff.2 h
  refine ⟨order, fun n hn => ?_⟩
  rw [arrange_eq, nodes_collect]
  exact List.mem_flatMap.2 ⟨(order, r), hr, hn⟩

/-- Nothing is wrong with any of the siblings if nothing is with all of them. -/
theorem issues_of_arrange_clean (hclean : (arrange own cs).issues = [])
    {r : Reading (Option (Entry Pointer.Path))} (h : own = some r ∨ ∃ k, (k, r) ∈ cs) :
    r.issues = [] :=
  List.eq_nil_iff_forall_not_mem.2 fun _ hi =>
    List.eq_nil_iff_forall_not_mem.1 hclean _ (mem_issues_arrange_iff.2 ⟨r, h, hi⟩)

end

/-- An object with a value and no children answers for itself alone. -/
theorem answers_token {place : Pointer.Path} {ms : Members} {n : Node} (hc : hasChildren ms = false)
    (hid : n.id = ⟨Pointer.format place⟩) (hn : Carries ms n) :
    Answers place (.object ms) [n] := by
  have hfits : (Role.entry (.object ms)).Fits n := ⟨ms, rfl, hn⟩
  refine ⟨List.forall_mem_singleton.2 ⟨[], _, .entry _, by rwa [List.append_nil], hfits⟩, ?_⟩
  intro path role hw
  cases hw with
  | entry => exact ⟨n, List.mem_singleton.2 rfl, by rwa [List.append_nil], hfits⟩
  | own _ hc' => simp [hc] at hc'
  | child hm hk => simp [hasChildren_iff.2 ⟨_, _, hm, hk⟩] at hc

/-- What is read of an entry without an issue answers for all of it. -/
def Answered (names : List String) (name : String) (raw : Json)
    (e : Option (Entry Pointer.Path)) : Prop :=
  ∀ parent order, Answers (names ++ [name]) raw (entryNodes names parent order e)

/-- A group answers for itself, its own token, and all that its children answer for. -/
theorem answers_group {place : Pointer.Path} {ms : Members} {self : Node}
    {own : Option (Reading (Option (Entry Pointer.Path)))}
    {cs : List (String × Reading (Option (Entry Pointer.Path)))}
    (hid : self.id = ⟨Pointer.format place⟩) (hself : Carries ms self)
    (hown : ∀ r, own = some r → (Key.value ∈ Dict.keys ms ∧ hasChildren ms) ∧
      ∃ t, t.name = rootTokenName ∧ r.value = some (.token place t))
    (hvalue : Key.value ∈ Dict.keys ms → ∃ r, own = some r)
    (hread : ∀ k r, (k, r) ∈ cs →
      ∃ raw, (k, raw) ∈ ms ∧ Name.isChild k ∧ Answered place k raw r.value)
    (hall : ∀ k raw, (k, raw) ∈ ms → Name.isChild k →
      ∃ r, (k, r) ∈ cs ∧ Answered place k raw r.value) :
    Answers place (.object ms)
      (self :: (forestGrove place (arrange own cs).value).nodes (some self.id)) := by
  have hfits : (Role.entry (.object ms)).Fits self := ⟨ms, rfl, hself⟩
  constructor
  · intro n hn
    rcases List.mem_cons.1 hn with rfl | hn
    · exact ⟨[], _, .entry _, by rwa [List.append_nil], hfits⟩
    obtain ⟨r, order, hr | ⟨k, hr⟩, hn⟩ := mem_nodes_arrange hn
    · obtain ⟨⟨hv, hc⟩, t, ht, htoken⟩ := hown r hr
      rw [htoken, entryNodes_token, ht] at hn
      obtain rfl := List.mem_singleton.1 hn
      exact ⟨[rootTokenName], .own, .own hv hc, rfl, rfl⟩
    · obtain ⟨raw, hm, hk, ha⟩ := hread k r hr
      obtain ⟨path, role, hw, hid, hrole⟩ := (ha _ order).sound n hn
      exact ⟨k :: path, role, .child hm hk hw, by rw [hid, List.append_assoc place]; rfl, hrole⟩
  · intro path role hw
    cases hw with
    | entry => exact ⟨self, List.mem_cons_self .., by rwa [List.append_nil], hfits⟩
    | own hv hc =>
      obtain ⟨r, hr⟩ := hvalue hv
      obtain ⟨-, t, ht, htoken⟩ := hown r hr
      obtain ⟨order, hsub⟩ := nodes_subset_arrange (.inl hr)
      rw [htoken, entryNodes_token, ht] at hsub
      exact ⟨_, List.mem_cons_of_mem _ (hsub (List.mem_singleton.2 rfl)), rfl, rfl⟩
    | @child _ k raw path _ hm hk hw =>
      obtain ⟨r, hr, ha⟩ := hall k raw hm hk
      obtain ⟨order, hsub⟩ := nodes_subset_arrange (.inr ⟨k, hr⟩)
      obtain ⟨n, hn, hid, hrole⟩ := (ha _ order).complete path role hw
      exact ⟨n, List.mem_cons_of_mem _ (hsub hn), by rw [hid, List.append_assoc place]; rfl, hrole⟩

theorem ReadAs.answered {names : List String} {name : String} {inherited : Option TokenType}
    {h : Header} {ms : Members} {r : Reading (Option (Entry Pointer.Path))}
    (hr : ReadAs (names ++ [name]) inherited name h ms r)
    (hheader : ∀ key ∈ headerKeys, Dict.get? h.members key = Dict.get? ms key)
    (hclean : r.issues = [])
    (hchildren : ∀ inherited k raw, (k, raw) ∈ ms →
      (readEntry (names ++ [name] ++ [k]) inherited k raw).issues = [] →
      Answered (names ++ [name]) k raw (readEntry (names ++ [name] ++ [k]) inherited k raw).value) :
    Answered names name (.object ms) r.value := by
  intro parent order
  cases hr with
  | rootWithoutValue | rootWithChildren | besideRoot => cases hclean
  | @token raw hv hc =>
    obtain ⟨value, hvalue⟩ := readToken_clean hclean
    have hcontains : Dict.contains ms Key.value := Dict.isSome_get?_iff.2 (Dict.mem_keys_of_get? hv)
    rw [hvalue, entryNodes_token]
    exact answers_token hc rfl ⟨by rw [hcontains, hc]; rfl, by rw [hcontains, hc]; rfl, hheader⟩
  | group hn hv =>
    obtain ⟨harrange, -⟩ := Reading.issues_bind_eq_nil_iff.1 hclean
    have hgroup : (Dict.contains ms Key.value && !hasChildren ms) = false := by
      rw [Bool.eq_false_iff, ne_eq, Bool.and_eq_true, Dict.contains, Dict.isSome_get?_iff]
      rintro ⟨hvalue, hc⟩
      simp [hv hvalue] at hc
    simp only [Reading.value_bind, Reading.value_pure, entryNodes_group]
    refine answers_group rfl ⟨by rw [hgroup]; rfl, by rw [hgroup]; rfl, hheader⟩ ?_ ?_ ?_ ?_
    · intro r hr
      have hr' := issues_of_arrange_clean harrange (.inl hr)
      obtain ⟨raw, hraw, rfl⟩ := Option.map_eq_some_iff.1 hr
      obtain ⟨value, hvalue⟩ := readToken_clean hr'
      exact ⟨⟨Dict.mem_keys_of_get? hraw, hv (Dict.mem_keys_of_get? hraw)⟩, _, rfl, hvalue⟩
    · intro hvalue
      obtain ⟨raw, hraw⟩ := Option.isSome_iff_exists.1 (Dict.isSome_get?_iff.2 hvalue)
      exact ⟨_, by rw [hraw, Option.map_some]⟩
    · intro k r hr
      have hr' := issues_of_arrange_clean harrange (.inr ⟨k, hr⟩)
      obtain ⟨hk, raw, hm, rfl⟩ := mem_readChildren_iff.1 hr
      exact ⟨raw, hm, hk, hchildren _ k raw hm hr'⟩
    · intro k raw hm hk
      have hr : (k, _) ∈ readChildren (names ++ [name]) (h.declaredType.or inherited) ms :=
        mem_readChildren_iff.2 ⟨hk, raw, hm, rfl⟩
      exact ⟨_, hr, hchildren _ k raw hm (issues_of_arrange_clean harrange (.inr ⟨k, hr⟩))⟩

mutual

/-- An entry that is read without an issue answers for all that is below it. -/
theorem answered_readEntry (names : List String) (name : String) (inherited : Option TokenType) :
    (raw : Json) → raw.WellFormed →
    (readEntry (names ++ [name]) inherited name raw).issues = [] →
    Answered names name raw (readEntry (names ++ [name]) inherited name raw).value
  | .object ms, hms, hclean => by
    rcases readEntry_object (names ++ [name]) inherited name ms with
      ⟨e, hread⟩ | ⟨-, ⟨hnone, hread⟩ | ⟨h, r, hsome, hr, hread⟩⟩
    · rw [hread] at hclean
      cases hclean
    all_goals
      rw [hread] at hclean ⊢
      obtain ⟨hheader, hclean⟩ := Reading.issues_bind_eq_nil_iff.1 hclean
      obtain ⟨h', hh', hget⟩ := Header.get?_read_empty hms.1 hheader
    · cases hnone.symm.trans hh'
    · cases hsome.symm.trans hh'
      exact hr.answered hget hclean fun inherited k raw hm =>
        answered_members (names ++ [name]) inherited ms hms.2 (k, raw) hm
  | .null, _, hclean | .bool _, _, hclean | .number _, _, hclean | .string _, _, hclean
  | .array _, _, hclean => by
    rw [readEntry] at hclean
    · split at hclean <;> cases hclean
    · intro ms h
      cases h

theorem answered_members (names : List String) (inherited : Option TokenType) :
    (ms : List (String × Json)) → Json.WellFormedMembers ms → ∀ m ∈ ms,
    (readEntry (names ++ [m.1]) inherited m.1 m.2).issues = [] →
    Answered names m.1 m.2 (readEntry (names ++ [m.1]) inherited m.1 m.2).value
  | [], _, _, hm, _ => nomatch hm
  | (k, raw) :: ms, h, m, hm, hclean => by
    rcases List.mem_cons.1 hm with rfl | hm
    · exact answered_readEntry names k inherited raw h.1 hclean
    · exact answered_members names inherited ms h.2 m hm hclean

end

/-! ## Paths of entries -/

section

variable {raw v : Json} {path : Pointer.Path}

/-- The entries below one are those that paths of children lead to. -/
theorem wanted_entry_iff (hraw : raw.WellFormed) : Wanted raw path (.entry v) ↔
    (∀ k ∈ path, Name.isChild k) ∧ raw.at? path = some v := by
  constructor
  · intro h
    generalize hrole : Role.entry v = role at h
    induction h with
    | entry raw =>
      cases hrole
      exact ⟨List.forall_mem_nil _, rfl⟩
    | own => cases hrole
    | child hm hk _ ih =>
      have hget := Dict.get?_of_mem hraw.1 hm
      obtain ⟨hks, hat⟩ := ih (.of_get? hraw.2 hget) hrole
      exact ⟨List.forall_mem_cons.2 ⟨hk, hks⟩, by rw [Json.at?_object_cons, hget]; exact hat⟩
  · rintro ⟨hks, hat⟩
    induction path generalizing raw with
    | nil =>
      cases hat
      exact .entry _
    | cons k path ih =>
      obtain ⟨hk, hks⟩ := List.forall_mem_cons.1 hks
      cases raw with
      | object ms =>
        rw [Json.at?_object_cons] at hat
        cases hget : Dict.get? ms k with
        | none => simp [hget] at hat
        | some w =>
          rw [hget] at hat
          exact .child (Dict.mem_of_get? hget) hk (ih (.of_get? hraw.2 hget) hks hat)
      | _ => cases hat

/-- The own token of a group is wanted where the group is, under the name of such tokens. -/
theorem wanted_own_iff : Wanted raw path .own ↔ ∃ above ms, path = above ++ [rootTokenName] ∧
    Wanted raw above (.entry (.object ms)) ∧ Key.value ∈ Dict.keys ms ∧ hasChildren ms := by
  constructor
  · intro h
    generalize hrole : Role.own = role at h
    induction h with
    | entry => cases hrole
    | @own ms hv hc => exact ⟨[], ms, rfl, .entry _, hv, hc⟩
    | @child _ k _ _ _ hm hk _ ih =>
      obtain ⟨above, ms, rfl, hw, hv⟩ := ih hrole
      exact ⟨k :: above, ms, rfl, .child hm hk hw, hv⟩
  · rintro ⟨above, ms, rfl, hw, hv, hc⟩
    generalize hrole : Role.entry (.object ms) = role at hw
    induction hw with
    | entry =>
      cases hrole
      exact .own hv hc
    | own => cases hrole
    | child hm hk _ ih => exact .child hm hk (ih hrole)

end

/-- A path that may lead to an entry of a document: `$root` is no child of the root. -/
def IsEntryPath : Pointer.Path → Prop
  | [] => False
  | k :: path => Name.isReserved k = false ∧ ∀ k ∈ path, Name.isChild k

/-- The entry of a document that child keys lead to. -/
def EntryAt (doc : Json) (path : Pointer.Path) (raw : Json) : Prop :=
  IsEntryPath path ∧ doc.at? path = some raw

/-- The nodes that must stand in a document. -/
def RootWanted (ms : Members) (path : Pointer.Path) (role : Role) : Prop :=
  ∃ k raw rest, path = k :: rest ∧ (k, raw) ∈ ms ∧ Name.isReserved k = false ∧ Wanted raw rest role

theorem rootWanted_entry_iff {ms : Members} (hms : (Json.object ms).WellFormed)
    {path : Pointer.Path} {v : Json} :
    RootWanted ms path (.entry v) ↔ EntryAt (.object ms) path v := by
  constructor
  · rintro ⟨k, raw, rest, rfl, hm, hk, hw⟩
    have hget := Dict.get?_of_mem hms.1 hm
    obtain ⟨hks, hat⟩ := (wanted_entry_iff (.of_get? hms.2 hget)).1 hw
    exact ⟨⟨hk, hks⟩, by rw [Json.at?_object_cons, hget]; exact hat⟩
  · rintro ⟨hpath, hat⟩
    cases path with
    | nil => cases hpath
    | cons k rest =>
      obtain ⟨hk, hks⟩ := hpath
      rw [Json.at?_object_cons] at hat
      cases hget : Dict.get? ms k with
      | none => simp [hget] at hat
      | some raw =>
        rw [hget] at hat
        exact ⟨k, raw, rest, rfl, Dict.mem_of_get? hget, hk,
          (wanted_entry_iff (.of_get? hms.2 hget)).2 ⟨hks, hat⟩⟩

theorem rootWanted_own_iff {ms : Members} {path : Pointer.Path} :
    RootWanted ms path .own ↔ ∃ above ms', path = above ++ [rootTokenName] ∧
      RootWanted ms above (.entry (.object ms')) ∧ Key.value ∈ Dict.keys ms' ∧ hasChildren ms' := by
  constructor
  · rintro ⟨k, raw, rest, rfl, hm, hk, hw⟩
    obtain ⟨above, ms', rfl, hw, hv⟩ := wanted_own_iff.1 hw
    exact ⟨k :: above, ms', rfl, ⟨k, raw, above, rfl, hm, hk, hw⟩, hv⟩
  · rintro ⟨_, ms', rfl, ⟨k, raw, above, rfl, hm, hk, hw⟩, hv⟩
    exact ⟨k, raw, above ++ [rootTokenName], rfl, hm, hk,
      wanted_own_iff.2 ⟨above, ms', rfl, hw, hv⟩⟩

/-! ## Documents -/

section

variable {ms : Members} (hms : (Json.object ms).WellFormed)
  (hclean : (parsePlain (.object ms)).issues = [])

include hms hclean

theorem answered_rootEntries {m : String × Json} (hm : m ∈ rootEntries ms) :
    Answered [] m.1 m.2 (readEntry [m.1] none m.1 m.2).value := by
  rw [issues_parsePlain, List.append_eq_nil_iff, List.flatMap_eq_nil_iff] at hclean
  exact answered_members [] none ms hms.2 m (List.mem_filter.1 hm).1 (hclean.2 m hm)

theorem wanted_of_mem_nodes {n : Node} (hn : n ∈ (parsePlain (.object ms)).nodes) :
    ∃ path role, RootWanted ms path role ∧ n.id = ⟨Pointer.format path⟩ ∧ role.Fits n := by
  rw [nodes_parsePlain] at hn
  obtain ⟨⟨order, k, raw⟩, hx, hn⟩ := List.mem_flatMap.1 hn
  have hm := (List.of_mem_zip hx).2
  obtain ⟨path, role, hw, hid, hfits⟩ := (answered_rootEntries hms hclean hm none order).sound n hn
  exact ⟨k :: path, role, ⟨k, raw, path, rfl, (List.mem_filter.1 hm).1,
    isReserved_of_mem_rootEntries hm, hw⟩, hid, hfits⟩

theorem exists_node_of_wanted {path : Pointer.Path} {role : Role} (hw : RootWanted ms path role) :
    ∃ n ∈ (parsePlain (.object ms)).nodes, n.id = ⟨Pointer.format path⟩ ∧ role.Fits n := by
  obtain ⟨k, raw, rest, rfl, hm, hk, hw⟩ := hw
  have hm : (k, raw) ∈ rootEntries ms := List.mem_filter.2 ⟨hm, by simp [hk]⟩
  have hzip := OrderKey.map_snd_zip_initial (rootEntries ms)
  rw [← hzip] at hm
  obtain ⟨⟨order, m⟩, hx, hmx⟩ := List.mem_map.1 hm
  obtain rfl : m = (k, raw) := hmx
  have hm := (List.of_mem_zip hx).2
  obtain ⟨n, hn, hid, hfits⟩ :=
    (answered_rootEntries hms hclean hm none order).complete rest role hw
  refine ⟨n, ?_, hid, hfits⟩
  rw [nodes_parsePlain]
  exact List.mem_flatMap.2 ⟨_, hx, hn⟩

end

/-- **Nothing of a document without issues is lost.** Its nodes are those of the entries that child
keys lead to, and a token of its own for each that has both a value and children; each entry is an
object, and its node is a token or a group as the object is, and carries all that it says of it. -/
theorem nodes_complete (checkReferences : Bool) {doc : Json} (hdoc : doc.WellFormed)
    (hclean : (parse .path ⟨false, checkReferences⟩ doc).isClean) :
    ((parse .path ⟨false, checkReferences⟩ doc).nodes.map Node.id).Nodup ∧
    (∀ id, id ∈ (parse .path ⟨false, checkReferences⟩ doc).nodes.map Node.id ↔
      (∃ path raw, EntryAt doc path raw ∧ id = ⟨Pointer.format path⟩) ∨
      ∃ path ms, EntryAt doc path (.object ms) ∧ Key.value ∈ Dict.keys ms ∧ hasChildren ms ∧
        id = ⟨Pointer.format (path ++ [rootTokenName])⟩) ∧
    (∀ path raw, EntryAt doc path raw → ∃ ms, raw = .object ms ∧
      ∃ n ∈ (parse .path ⟨false, checkReferences⟩ doc).nodes,
        n.id = ⟨Pointer.format path⟩ ∧ Carries ms n) ∧
    ∀ path ms, EntryAt doc path (.object ms) → Key.value ∈ Dict.keys ms → hasChildren ms →
      ∃ n ∈ (parse .path ⟨false, checkReferences⟩ doc).nodes,
        n.id = ⟨Pointer.format (path ++ [rootTokenName])⟩ ∧ n.isToken := by
  refine ⟨(forested_parse .path ⟨false, checkReferences⟩ hdoc).distinct, ?_⟩
  -- whether references are checked later changes no nodes
  have hplain : (parsePlain doc).issues = [] := by
    have hread : (read ⟨false, checkReferences⟩ doc).issues = [] :=
      (List.append_eq_nil_iff.1 (List.isEmpty_iff.1 hclean)).1
    cases doc with
    | object ms => exact (List.append_nil _).trans hread
    | _ => cases hread
  rw [show (parse .path ⟨false, checkReferences⟩ doc).nodes = (parsePlain doc).nodes by
    cases doc <;> rfl]
  cases doc with
  | object ms =>
    refine ⟨fun id => ⟨fun hid => ?_, ?_⟩, fun path raw h => ?_, fun path ms' h hv hc => ?_⟩
    · obtain ⟨n, hn, rfl⟩ := List.mem_map.1 hid
      obtain ⟨path, role, hw, hid, -⟩ := wanted_of_mem_nodes hdoc hplain hn
      cases role with
      | entry raw => exact .inl ⟨path, raw, (rootWanted_entry_iff hdoc).1 hw, hid⟩
      | own =>
        obtain ⟨above, ms', rfl, hw, hv, hc⟩ := rootWanted_own_iff.1 hw
        exact .inr ⟨above, ms', (rootWanted_entry_iff hdoc).1 hw, hv, hc, hid⟩
    · rintro (⟨path, raw, h, rfl⟩ | ⟨path, ms', h, hv, hc, rfl⟩)
      · obtain ⟨n, hn, hid, -⟩ :=
          exists_node_of_wanted hdoc hplain ((rootWanted_entry_iff hdoc).2 h)
        exact List.mem_map.2 ⟨n, hn, hid⟩
      · obtain ⟨n, hn, hid, -⟩ := exists_node_of_wanted hdoc hplain
          (rootWanted_own_iff.2 ⟨path, ms', rfl, (rootWanted_entry_iff hdoc).2 h, hv, hc⟩)
        exact List.mem_map.2 ⟨n, hn, hid⟩
    · obtain ⟨n, hn, hid, ms', rfl, hcarries⟩ :=
        exists_node_of_wanted hdoc hplain ((rootWanted_entry_iff hdoc).2 h)
      exact ⟨ms', rfl, n, hn, hid, hcarries⟩
    · exact exists_node_of_wanted hdoc hplain
        (rootWanted_own_iff.2 ⟨path, ms', rfl, (rootWanted_entry_iff hdoc).2 h, hv, hc⟩)
  | _ => cases hplain

/-- Groups with a token of their own, one in either way of writing it, the second inside the first. -/
def nestedOwn : Json :=
  .object [(Key.schema, .string "x"),
    ("g", .object [(Key.type, .string "number"), (Key.value, .number (.integer 1)),
      ("a/b", .object [(Key.value, .string "{g.h}"), (Key.deprecated, .bool false)]),
      ("h", .object [(Key.description, .string "d"),
        (rootTokenName, .object [(Key.value, .number (.integer 2)),
          (Key.extensions, .object [("e", .null)])])])])]

/-- The inner one is an entry itself, the outer one is not; each has its node. -/
theorem nestedOwn_complete :
    (nestedOwn.WellFormed ∧ (parse .path ⟨false, true⟩ nestedOwn).isClean ∧
      (parse .path ⟨false, true⟩ nestedOwn).nodes.map (fun n => n.id.text) =
        ["/g", "/g/$root", "/g/a~1b", "/g/h", "/g/h/$root"]) ∧
    (∃ ms, Json.object [(Key.value, .number (.integer 2)),
        (Key.extensions, .object [("e", .null)])] = .object ms ∧
      ∃ n ∈ (parse .path ⟨false, true⟩ nestedOwn).nodes,
        n.id = ⟨Pointer.format ["g", "h", rootTokenName]⟩ ∧ Carries ms n) ∧
    ∃ n ∈ (parse .path ⟨false, true⟩ nestedOwn).nodes,
      n.id = ⟨Pointer.format (["g"] ++ [rootTokenName])⟩ ∧ n.isToken := by
  have hdoc : nestedOwn.WellFormed := by
    simp [nestedOwn, Json.WellFormed, Json.WellFormedMembers, Key.type, Key.value, Key.schema,
      Key.deprecated, Key.description, Key.extensions, rootTokenName]
  have hclean : (parse .path ⟨false, true⟩ nestedOwn).isClean := by decide +kernel
  have hinner : EntryAt nestedOwn ["g", "h", rootTokenName]
      (.object [(Key.value, .number (.integer 2)), (Key.extensions, .object [("e", .null)])]) :=
    ⟨⟨by decide, by decide⟩, by decide⟩
  have houter : EntryAt nestedOwn ["g"] (.object _) := ⟨⟨by decide, List.forall_mem_nil _⟩, rfl⟩
  obtain ⟨-, -, hentries, hown⟩ := nodes_complete true hdoc hclean
  exact ⟨⟨hdoc, hclean, by decide +kernel⟩, hentries _ _ hinner,
    hown _ _ houter (by decide) (by decide)⟩

end Tree

end DesignTokens
