/-
Where the issues of a tree lie. The reader goes down through children alone, so
all that it reports lies at an entry that it came to or at a member of one
(`Spot`); it never looks for a place inside a value. Replacing references puts
other values in and leaves members out, and comes by no new spots; and the value
of a token that was read is still there when references between tokens are
checked, long after reading.
-/
import DesignTokens.Proofs.Document.Expanded
import DesignTokens.Proofs.Document.Tree.Cases
import DesignTokens.Proofs.Document.Tree.Written
import DesignTokens.Proofs.Pointer.Spelling

namespace DesignTokens

namespace Pointer

theorem findFrom_of_at? {v w : Json} {path : Path} (walked : Path) (h : v.at? path = some w) :
    findFrom walked v path = .ok w := by
  induction path generalizing walked v with
  | nil =>
    cases h
    rfl
  | cons step path ih =>
    cases v with
    | object ms =>
      rw [Json.at?_object_cons] at h
      cases hm : Dict.get? ms step with
      | none =>
        rw [hm] at h
        cases h
      | some u =>
        rw [hm] at h
        simp only [findFrom, hm]
        exact ih _ h
    | _ => cases h

/-- A pointer finds what a path of member names leads to. -/
theorem find_of_at? {v w : Json} {path : Path} (h : v.at? path = some w) : find v path = .ok w :=
  findFrom_of_at? [] h

end Pointer

namespace Tree

open Expansion

/-- An entry that children lead to, or a member of one, under the path that leads there. -/
inductive Spot : Json → Pointer.Path → Prop
  | entry (raw : Json) : Spot raw []
  | member {ms : Members} {k : String} (h : k ∈ Dict.keys ms) : Spot (.object ms) [k]
  | child {ms : Members} {k : String} {raw : Json} {path : Pointer.Path} (h : (k, raw) ∈ ms)
      (hk : Name.isChild k) (hs : Spot raw path) : Spot (.object ms) (k :: path)

theorem Spot.mono {ms ms' : Members} {path : Pointer.Path} (h : Spot (.object ms) path)
    (hsub : ms ⊆ ms') : Spot (.object ms') path := by
  cases h with
  | entry => exact .entry _
  | member hk =>
    obtain ⟨m, hm, rfl⟩ := List.mem_map.1 hk
    exact .member (List.mem_map_of_mem (hsub hm))
  | child hm hk hs => exact .child (hsub hm) hk hs

/-- Where no object repeats a key, a spot is where its path leads. -/
theorem Spot.exists_at? {raw : Json} {path : Pointer.Path} (h : Spot raw path)
    (hraw : raw.WellFormed) : ∃ v, raw.at? path = some v := by
  induction h with
  | entry raw => exact ⟨raw, rfl⟩
  | @member ms k hk =>
    obtain ⟨v, hv⟩ := Option.isSome_iff_exists.1 (Dict.isSome_get?_iff.2 hk)
    exact ⟨v, by rw [Json.at?_object_cons, hv]; rfl⟩
  | child hm _ _ ih =>
    have hget := Dict.get?_of_mem hraw.1 hm
    obtain ⟨v, hv⟩ := ih (.of_get? hraw.2 hget)
    exact ⟨v, by rw [Json.at?_object_cons, hget]; exact hv⟩

/-- A path that leads to a spot of what is at a place. -/
def Within (place : Pointer.Path) (raw : Json) (path : Pointer.Path) : Prop :=
  ∃ rest, path = place ++ rest ∧ Spot raw rest

theorem Within.of_spots {place : Pointer.Path} {raw raw' : Json}
    (hs : ∀ path, Spot raw path → Spot raw' path) (path : Pointer.Path) :
    Within place raw path → Within place raw' path :=
  fun ⟨rest, hpath, h⟩ => ⟨rest, hpath, hs rest h⟩

theorem Within.mono {place : Pointer.Path} {ms ms' : Members} (hsub : ms ⊆ ms') :
    ∀ path, Within place (.object ms) path → Within place (.object ms') path :=
  Within.of_spots fun _ h => h.mono hsub

/-- What lies below a child lies below the entry that has it. -/
theorem Within.child {place : Pointer.Path} {ms : Members} {k : String} {raw : Json}
    (hm : (k, raw) ∈ ms) (hk : Name.isChild k) (path : Pointer.Path) :
    Within (place ++ [k]) raw path → Within place (.object ms) path := by
  rintro ⟨rest, rfl, h⟩
  exact ⟨k :: rest, by rw [List.append_assoc, List.singleton_append], .child hm hk h⟩

section

variable {α β : Type} {place place' : Pointer.Path} {raw raw' : Json}

/-- All issues of a reading lie at spots of what is at a place. -/
def Spotted (place : Pointer.Path) (raw : Json) (r : Reading α) : Prop :=
  ∀ i ∈ r.issues, Within place raw i.path

theorem spotted_pure (a : α) : Spotted place raw (pure a : Reading α) :=
  List.forall_mem_nil _

theorem spotted_withIssue (a : α) {path : Pointer.Path} (h : Spot raw path) (cause : Cause) :
    Spotted place raw (.withIssue a (place ++ path) cause) :=
  List.forall_mem_singleton.2 ⟨path, rfl, h⟩

theorem spotted_withIssue_entry (a : α) (cause : Cause) :
    Spotted place raw (.withIssue a place cause) :=
  List.forall_mem_singleton.2 ⟨[], (List.append_nil place).symm, .entry raw⟩

theorem Spotted.bind {r : Reading α} {f : α → Reading β} (hr : Spotted place raw r)
    (hf : Spotted place raw (f r.value)) : Spotted place raw (r >>= f) :=
  List.forall_mem_append.2 ⟨hr, hf⟩

theorem Spotted.imp {r : Reading α} (h : Spotted place raw r)
    (hw : ∀ path, Within place raw path → Within place' raw' path) : Spotted place' raw' r :=
  fun i hi => hw i.path (h i hi)

end

/-! ## Headers and values -/

section

variable {place : Pointer.Path} {ms : Members}

theorem spotted_add (h : Header) {k : String} (hk : k ∈ Dict.keys ms) (raw : Json) :
    Spotted place (.object ms) (h.add place k raw) := by
  have hissue {a : Option Header} (cause : Cause) :
      Spotted place (.object ms) (.withIssue a (place ++ [k]) cause) :=
    spotted_withIssue a (.member hk) cause
  unfold Header.add
  repeat' split
  all_goals first | exact spotted_pure _ | exact hissue _

theorem spotted_header (h : Header) (ms : Members) :
    Spotted place (.object ms) (Header.read place h ms) := by
  induction ms generalizing h with
  | nil => exact spotted_pure _
  | cons m ms ih =>
    obtain ⟨k, raw⟩ := m
    have hrest (h : Header) : Spotted place (.object ((k, raw) :: ms)) (Header.read place h ms) :=
      (ih h).imp (Within.mono (List.subset_cons_self ..))
    rw [Header.read]
    split
    · refine (spotted_add h (by simp) raw).bind ?_
      split
      · exact spotted_pure _
      · exact hrest _
    · exact hrest h

/-- The tokens that were read of what is at a place have their values at spots of it. -/
def Holds (place : Pointer.Path) (raw : Json) (tokens : List (Pointer.Path × Token)) : Prop :=
  ∀ x ∈ tokens, Within place raw (x.1 ++ [Key.value])

/-- Issues lie at spots, and so do the values of the tokens that were read. -/
structure Located (place : Pointer.Path) (raw : Json)
    (r : Reading (Option (Entry Pointer.Path))) : Prop where
  issues : Spotted place raw r
  tokens : ∀ e, r.value = some e → Holds place raw e.tokens

theorem Located.of_value_none {raw : Json} {r : Reading (Option (Entry Pointer.Path))}
    (hi : Spotted place raw r) (hn : r.value = none) : Located place raw r :=
  ⟨hi, fun e he => absurd (hn.symm.trans he) (Option.some_ne_none e).symm⟩

theorem Located.imp {place' : Pointer.Path} {raw raw' : Json}
    {r : Reading (Option (Entry Pointer.Path))} (h : Located place raw r)
    (hw : ∀ path, Within place raw path → Within place' raw' path) : Located place' raw' r :=
  ⟨h.issues.imp hw, fun e he x hx => hw _ (h.tokens e he x hx)⟩

theorem located_readToken {inherited : Option TokenType} {name : String} {h : Header} {raw : Json}
    (hv : Key.value ∈ Dict.keys ms) :
    Located place (.object ms) (readToken place inherited name h raw) := by
  rw [readToken]
  split
  · refine ⟨spotted_pure _, fun e he => ?_⟩
    cases he
    exact List.forall_mem_singleton.2 ⟨[Key.value], rfl, .member hv⟩
  · exact .of_value_none (spotted_withIssue none (.member hv) _) rfl

end

/-! ## Siblings -/

section

variable {place : Pointer.Path} {raw : Json}
  {own : Option (Reading (Option (Entry Pointer.Path)))}
  {cs : List (String × Reading (Option (Entry Pointer.Path)))}
  (hcs : ∀ r, (own = some r ∨ ∃ k, (k, r) ∈ cs) → Located place raw r)

include hcs

theorem spotted_arrange : Spotted place raw (arrange own cs) := by
  intro i hi
  obtain ⟨r, hr, hi⟩ := mem_issues_arrange_iff.1 hi
  exact (hcs r hr).issues i hi

theorem holds_arrange : Holds place raw (forestTokens (arrange own cs).value) := by
  intro x hx
  obtain ⟨e, he, hx⟩ := mem_forestTokens.1 hx
  obtain ⟨r, hr, hv⟩ := mem_value_arrange_cases he
  exact (hcs r hr).tokens e.2 hv x hx

end

/-! ## Entries -/

/-- Each way of reading an entry stays within it if its children are read so. -/
theorem ReadAs.located {place : Pointer.Path} {inherited : Option TokenType} {name : String}
    {h : Header} {ms : Members} {r : Reading (Option (Entry Pointer.Path))}
    (hr : ReadAs place inherited name h ms r)
    (hcs : ∀ inherited, ∀ c ∈ readChildren place inherited ms, Located place (.object ms) c.2) :
    Located place (.object ms) r := by
  have hall (inherited : Option TokenType) (own : Option (Reading (Option (Entry Pointer.Path))))
      (hown : ∀ r, own = some r → Located place (.object ms) r) :
      ∀ r, (own = some r ∨ ∃ k, (k, r) ∈ readChildren place inherited ms) →
        Located place (.object ms) r := by
    rintro r (hr | ⟨k, hr⟩)
    · exact hown r hr
    · exact hcs inherited _ hr
  cases hr with
  | rootWithoutValue | rootWithChildren =>
    exact .of_value_none (spotted_withIssue_entry none _) rfl
  | token hv => exact located_readToken (Dict.mem_keys_of_get? hv)
  | besideRoot _ hv =>
    have hchildren := hall (h.declaredType.or inherited) none nofun
    refine ⟨(spotted_withIssue () (.member hv) _).bind
      ((spotted_arrange hchildren).bind (spotted_pure _)), fun e he => ?_⟩
    cases he
    exact holds_arrange hchildren
  | group =>
    have hown : ∀ r, (Dict.get? ms Key.value).map
        (readToken place (h.declaredType.or inherited) rootTokenName .empty) = some r →
        Located place (.object ms) r := by
      intro r hr
      obtain ⟨raw, hraw, rfl⟩ := Option.map_eq_some_iff.1 hr
      exact located_readToken (Dict.mem_keys_of_get? hraw)
    have hchildren := hall (h.declaredType.or inherited) _ hown
    refine ⟨(spotted_arrange hchildren).bind (spotted_pure _), fun e he => ?_⟩
    cases he
    exact holds_arrange hchildren

mutual

/-- What is read of an entry, and what is reported of it, lies at spots of it. -/
theorem located_readEntry (place : Pointer.Path) (inherited : Option TokenType) (name : String) :
    (raw : Json) → Located place raw (readEntry place inherited name raw)
  | .object ms => by
    have hheader : Spotted place (.object ms) (Header.read place .empty ms) := spotted_header _ ms
    rcases readEntry_object place inherited name ms with
      ⟨e, hread⟩ | ⟨-, ⟨-, hread⟩ | ⟨h, r, -, hr, hread⟩⟩
    · rw [hread]
      exact .of_value_none (spotted_withIssue_entry none _) rfl
    · rw [hread]
      exact .of_value_none (hheader.bind (spotted_pure none)) rfl
    · have hbody := hr.located fun inherited => located_readChildren place inherited ms
      rw [hread]
      exact ⟨hheader.bind hbody.issues, hbody.tokens⟩
  | .null | .bool _ | .number _ | .string _ | .array _ => by
    rw [readEntry]
    · split <;> exact .of_value_none (spotted_withIssue_entry none _) rfl
    · intro ms h
      cases h

theorem located_readChildren (place : Pointer.Path) (inherited : Option TokenType) :
    (ms : List (String × Json)) →
    ∀ c ∈ readChildren place inherited ms, Located place (.object ms) c.2
  | [], _, hc => nomatch hc
  | (k, raw) :: ms, c, hc => by
    have hrest : c ∈ readChildren place inherited ms → Located place (.object ((k, raw) :: ms)) c.2 :=
      fun hc => (located_readChildren place inherited ms c hc).imp (Within.mono (List.subset_cons_self ..))
    rw [readChildren] at hc
    split at hc
    · next hk =>
      rcases List.mem_cons.1 hc with rfl | hc
      · exact (located_readEntry _ inherited k raw).imp (Within.child (List.mem_cons_self ..) hk)
      · exact hrest hc
    · exact hrest hc

end

/-! ## Roots -/

theorem spotted_checkRootKeys (place : Pointer.Path) (ms : Members) :
    Spotted place (.object ms) (checkRootKeys place ms) := by
  induction ms with
  | nil => exact spotted_pure ()
  | cons m ms ih =>
    obtain ⟨k, raw⟩ := m
    have hrest : Spotted place (.object ((k, raw) :: ms)) (checkRootKeys place ms) :=
      ih.imp (Within.mono (List.subset_cons_self ..))
    rw [checkRootKeys]
    split
    · exact (spotted_withIssue () (.member (by simp)) _).bind hrest
    · exact hrest

section

variable (place : Pointer.Path) (ms : Members)

theorem located_rootChildren : ∀ r, (none = some r ∨ ∃ k, (k, r) ∈
    (readChildren place none ms).filter fun c => c.1 ≠ rootTokenName) →
    Located place (.object ms) r := by
  rintro r (hr | ⟨k, hr⟩)
  · cases hr
  · exact located_readChildren place none ms _ (List.mem_filter.1 hr).1

theorem spotted_readRoot : Spotted place (.object ms) (readRoot place ms) :=
  (spotted_checkRootKeys place ms).bind (spotted_arrange (located_rootChildren place ms))

theorem holds_readRoot : Holds place (.object ms) (forestTokens (readRoot place ms).value) :=
  holds_arrange (located_rootChildren place ms)

end

/-! ## Replaced references -/

section

variable (doc : Json)

mutual

/-- What is reported while references are replaced lies at a spot. -/
theorem spotted_expandEntry (place : Pointer.Path) :
    (raw : Json) → Spotted place raw (expandEntry doc place raw)
  | .object ms => by
    rcases expandEntry_object_cases doc place ms with ⟨raw, e, hraw, -, h⟩ | ⟨own, -, h⟩
    · rw [h]
      exact spotted_withIssue none (.member (Dict.mem_keys_of_get? hraw)) _
    · rw [h]
      exact (spotted_expandChildren place own ms).bind (spotted_pure _)
  | .null | .bool _ | .number _ | .string _ | .array _ => by
    rw [expandEntry]
    · exact spotted_pure _
    · intro ms h
      cases h

theorem spotted_expandChildren (place : Pointer.Path) (own : Option Json) :
    (ms : List (String × Json)) → Spotted place (.object ms) (expandChildren doc place own ms)
  | [] => spotted_pure _
  | (k, raw) :: ms => by
    have hrest : Spotted place (.object ((k, raw) :: ms)) (expandChildren doc place own ms) :=
      (spotted_expandChildren place own ms).imp (Within.mono (List.subset_cons_self ..))
    rw [expandChildren_cons]
    refine Spotted.bind ?_ (hrest.bind (spotted_pure _))
    rw [expandMember]
    split
    · exact spotted_pure _
    · split
      · next hk => exact (spotted_expandEntry (place ++ [k]) raw).imp (Within.child (List.mem_cons_self ..) hk)
      · exact spotted_pure _

end

mutual

/-- Replacing references makes no new spots: a spot of what comes out was there before. -/
theorem Spot.of_expandEntry {place : Pointer.Path} {v : Json} {path : Pointer.Path} :
    (raw : Json) → (expandEntry doc place raw).value = some v → Spot v path → Spot raw path
  | .object ms, hv, h => by
    rcases expandEntry_object_cases doc place ms with ⟨raw, e, -, -, he⟩ | ⟨own, -, he⟩
    · rw [he] at hv
      cases hv
    · rw [he] at hv
      cases hv
      exact Spot.of_expandChildren ms h
  | .null, hv, h | .bool _, hv, h | .number _, hv, h | .string _, hv, h | .array _, hv, h => by
    cases hv
    exact h

theorem Spot.of_expandChildren {place : Pointer.Path} {own : Option Json} {path : Pointer.Path} :
    (ms : List (String × Json)) → Spot (.object (expandChildren doc place own ms).value) path →
    Spot (.object ms) path
  | [], h => h
  | (k, raw) :: ms, h => by
    have hrest (h : Spot (.object (expandChildren doc place own ms).value) path) :
        Spot (.object ((k, raw) :: ms)) path :=
      (Spot.of_expandChildren ms h).mono (List.subset_cons_self ..)
    rw [value_expandChildren_cons] at h
    split at h
    next v hv =>
      cases h with
      | entry => exact .entry _
      | member hk' =>
        rcases List.mem_cons.1 hk' with rfl | hk'
        · exact .member (List.mem_cons_self ..)
        · exact hrest (.member hk')
      | child hm hk hs =>
        rcases List.mem_cons.1 hm with he | hm
        · cases he
          rw [expandMember, if_neg (isChild_ne_value hk), if_pos hk] at hv
          exact .child (List.mem_cons_self ..) hk (Spot.of_expandEntry raw hv hs)
        · exact hrest (.child hm hk hs)
    · exact hrest h

end

end

/-! ## Documents -/

theorem spotted_expandValues (doc : Json) : Spotted [] doc (expandValues doc []) :=
  (spotted_expandEntry doc [] doc).bind (spotted_pure _)

theorem Spot.of_expandValues {doc : Json} {base path : Pointer.Path}
    (h : Spot (expandValues doc base).value path) : Spot doc path := by
  rw [value_expandValues] at h
  cases hv : (expandEntry doc base doc).value with
  | none => rwa [hv, Option.getD_none] at h
  | some v =>
    rw [hv, Option.getD_some] at h
    exact .of_expandEntry doc doc hv h

/-- What the reader reports of a document lies at spots of it, and there the tokens have values. -/
theorem spotted_read (options : ReadOptions) (doc : Json) :
    Spotted [] doc (read options doc) ∧ Holds [] doc (forestTokens (read options doc).value) := by
  cases doc with
  | object ms =>
    rw [read]
    split
    · obtain ⟨ms', hms⟩ := exists_members_expandValues ms []
      have hwithin : ∀ path, Within [] (.object ms') path → Within [] (.object ms) path :=
        Within.of_spots fun path h => Spot.of_expandValues (hms ▸ h)
      rw [bind_of_value hms]
      exact ⟨(spotted_expandValues _).bind ((spotted_readRoot [] ms').imp hwithin),
        fun x hx => hwithin _ (holds_readRoot [] ms' x hx)⟩
    · exact ⟨spotted_readRoot [] ms, holds_readRoot [] ms⟩
  | null | bool | number | string | array =>
    exact ⟨spotted_withIssue_entry [] _, List.forall_mem_nil _⟩

mutual

theorem Entry.mem_tokens_of_mem_nodes {scheme : IdScheme} {parent : Option NodeId}
    {names : List String} {before : Nat} {order : String} {p : Placed} {t : Token}
    (ht : p.node.token? = some t) : (e : Entry Pointer.Path) →
    p ∈ e.nodes scheme parent names before order → (p.place, t) ∈ e.tokens
  | .token place t', h => by
    cases List.mem_singleton.1 h
    cases ht
    exact List.mem_singleton.2 rfl
  | .group place g children, h => by
    rcases List.mem_cons.1 h with rfl | h
    · cases ht
    · exact mem_forestTokens_of_mem_forestNodes ht children h

/-- A token's node keeps the place where the token was read. -/
theorem mem_forestTokens_of_mem_forestNodes {scheme : IdScheme} {parent : Option NodeId}
    {names : List String} {before : Nat} {p : Placed} {t : Token}
    (ht : p.node.token? = some t) : (es : List (String × Entry Pointer.Path)) →
    p ∈ forestNodes scheme parent names before es → (p.place, t) ∈ forestTokens es
  | (order, e) :: es, h => by
    rw [forestNodes] at h
    rcases List.mem_append.1 h with h | h
    · exact List.mem_append_left _ (Entry.mem_tokens_of_mem_nodes ht e h)
    · exact List.mem_append_right _ (mem_forestTokens_of_mem_forestNodes ht es h)

end

/-- What is reported of references lies at the value of a token. -/
theorem mem_referenceIssues {placed : List Placed} {i : Issue} (hi : i ∈ referenceIssues placed) :
    ∃ p ∈ placed, ∃ t, p.node.token? = some t ∧ i.path = p.place ++ [Key.value] := by
  obtain ⟨p, hp, hi⟩ := List.mem_filterMap.1 hi
  unfold referenceIssue? at hi
  split at hi
  · cases hi
  next t ht =>
  split at hi
  · cases hi
  split at hi
  · cases hi
  · exact ⟨p, hp, t, ht, by rw [← Option.some.inj hi]⟩

/-- Whatever is reported of a document, while it is read or later, lies at a spot of it. -/
theorem spot_of_mem_issues {scheme : IdScheme} {options : ReadOptions} {doc : Json} {i : Issue}
    (hi : i ∈ (parse scheme options doc).issues) : Spot doc i.path := by
  have hwithin : Within [] doc i.path := by
    obtain ⟨hissues, htokens⟩ := spotted_read options doc
    rcases List.mem_append.1 hi with hi | hi
    · exact hissues i hi
    split at hi
    · obtain ⟨p, hp, t, ht, hpath⟩ := mem_referenceIssues hi
      rw [hpath]
      exact htokens _ (mem_forestTokens_of_mem_forestNodes ht _ hp)
    · cases hi
  obtain ⟨rest, hpath, hs⟩ := hwithin
  rwa [hpath]

/-- **Every issue of a document has the pointer of a value in it**: the text is a pointer, and its
steps lead from the document as it was given to what is reported, even where references were
replaced before or are followed after. -/
theorem find_of_mem_issues (scheme : IdScheme) (options : ReadOptions) {doc : Json}
    (hdoc : doc.WellFormed) : ∀ i ∈ (parse scheme options doc).issues,
      Pointer.check i.pointer = .ok () ∧
      ∃ v, Pointer.find doc (Pointer.parse i.pointer) = .ok v := by
  intro i hi
  obtain ⟨v, hv⟩ := (spot_of_mem_issues hi).exists_at? hdoc
  refine ⟨Pointer.check_format i.path, v, ?_⟩
  rw [Issue.pointer, Pointer.parse_format]
  exact Pointer.find_of_at? hv

/-- Names that need escaping; references that lead nowhere, into a value, and to no token. -/
def crookedNames : Json :=
  .object [("$bad", .null),
    ("a/b", .object [(Key.value, .string "{no.such}"), (Key.type, .string "number"),
      ("x~y", .object [(Key.value, .object [(Pointer.refKey, .string "#/nope")])]),
      ("z", .object [(Key.value, .object [(Pointer.refKey, .string "#/c/$value")]), ("$q", .null)])]),
    ("c", .object [(Key.value, .string "red")])]

/-- The last issue is about a token that has no entry of its own: its value is that of the group. -/
theorem crookedNames_issues_lead :
    (crookedNames.WellFormed ∧
      (parse (.sequential "n") .all crookedNames).issues.map Issue.pointer =
        ["/a~1b/x~0y/$value", "/$bad", "/a~1b/z/$q", "/a~1b/z/$value", "/c/$value",
          "/a~1b/$value"]) ∧
    ∀ i ∈ (parse (.sequential "n") .all crookedNames).issues,
      Pointer.check i.pointer = .ok () ∧
      ∃ v, Pointer.find crookedNames (Pointer.parse i.pointer) = .ok v := by
  have hdoc : crookedNames.WellFormed := by
    simp [crookedNames, Json.WellFormed, Json.WellFormedMembers, Key.type, Key.value,
      Pointer.refKey]
  exact ⟨⟨hdoc, by decide +kernel⟩, find_of_mem_issues (.sequential "n") .all hdoc⟩

end Tree

end DesignTokens
