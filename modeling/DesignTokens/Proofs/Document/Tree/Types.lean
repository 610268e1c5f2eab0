/-
The types in a written document. A group passes the type it declares, or that
comes down to it, on to its children, whether the type is written on it or left
out; so what is passed down is at every place the type that is written nearest to
it (`Store.Around.nearestType_eq`). With minimal types none is written where it
would be that one again, and every token has the type it would have in the store.
-/
import DesignTokens.Proofs.Document.Tree.Places

namespace DesignTokens

open Json

namespace Tree

/-! ## The nearest type -/

/-- The type that is written nearest to the end of a path: there, or further up. -/
def nearestType : Json → List String → Option Json
  | v, [] => v.member? Key.type
  | v, k :: path => ((v.member? k).bind fun w => nearestType w path).or (v.member? Key.type)

theorem nearestType_concat (v : Json) (path : List String) (k : String) :
    nearestType v (path ++ [k]) =
      ((v.at? (path ++ [k])).bind fun w => w.member? Key.type).or (nearestType v path) := by
  induction path generalizing v with
  | nil =>
    simp only [List.nil_append, nearestType, at?]
    cases v.member? k <;> rfl
  | cons l path ih =>
    rw [List.cons_append, nearestType, at?, nearestType]
    cases v.member? l with
    | none => rfl
    | some w => rw [Option.bind_some, Option.bind_some, ih, Option.or_assoc]

/-- A type as it is written. -/
def typeText (t : TokenType) : Json := .string t.name

theorem typeText_injective : Function.Injective typeText := by
  intro t u h
  have hname := ofName?_name t
  rw [Json.string.inj h, ofName?_name] at hname
  exact (Option.some.inj hname).symm

/-! ## The types that are written -/

section

variable {t : Token} {declared inherited : Option TokenType} {type : TokenType}

theorem writtenType_ne (h : writtenType true declared inherited = some type) :
    inherited ≠ some type := by
  unfold writtenType at h
  split at h
  · cases h
  · next hne =>
    rintro rfl
    exact hne (by simpa using h)

/-- The type of a literal is written only where none comes down. -/
theorem tokenType_ne (h : tokenType true t inherited = some type) : inherited ≠ some type := by
  unfold tokenType at h
  split at h
  · exact nofun
  · exact writtenType_ne h

/-- What is left out comes down, and a literal without a type has its own. -/
theorem tokenType_or (minimal : Bool) (t : Token) (inherited : Option TokenType) :
    (tokenType minimal t inherited).or inherited =
      (t.declaredType.or inherited).or (t.value.literal?.map Literal.type) := by
  cases htype : t.declaredType.or inherited with
  | none =>
    obtain ⟨hdeclared, rfl⟩ := Option.or_eq_none_iff.1 htype
    cases hvalue : t.value <;>
      simp [tokenType, writtenType, hdeclared, hvalue, TokenValue.literal?]
  | some type =>
    have hwritten : tokenType minimal t inherited =
        writtenType minimal t.declaredType inherited := by
      unfold tokenType
      split
      · next lit hdeclared _ =>
        rw [hdeclared] at htype
        cases htype
      · rfl
    rw [hwritten, writtenType_or, htype, Option.some_or]

end

end Tree

namespace Store

open DesignTokens.Tree

variable {s : Store}

section

variable (hc : s.Consistent) (ht : s.Titled) {minimal : Bool} {i : Option TokenType} {v : Json}
  {n : Node} {above : List Node} {e : Entry NodeId} (h : s.Grows above n e)
  (hwrite : writeEntry minimal s.aliasText i e = .ok v)

include h hwrite

theorem Grows.type_of_token {t : Token} (hcontent : n.content = .token t) :
    v.member? Key.type = (tokenType minimal t i).map typeText := by
  obtain ⟨t', hcontent', rfl⟩ | ⟨g, hcontent', -⟩ := h <;> cases hcontent.symm.trans hcontent'
  obtain ⟨raw, -, rfl⟩ := writeEntry_token_eq_ok.1 hwrite
  exact get?_type_token _ raw t.notes

include hc ht

theorem Grows.type_of_group (ha : s.Around n.parent above) (hn : s.node? n.id = some n) {g : Group}
    (hcontent : n.content = .group g) :
    v.member? Key.type = (writtenType minimal g.declaredType i).map typeText := by
  obtain ⟨t, hcontent', -⟩ | ⟨g', hcontent', rfl⟩ := h <;> cases hcontent.symm.trans hcontent'
  obtain ⟨named, hnamed, rfl⟩ := writeEntry_group_eq_ok.1 hwrite
  have hbelow := ha.child hc (hc.mem_children_iff.2 ⟨hn, rfl⟩) hcontent
  have hnone : Dict.get? named Key.type = none :=
    get?_eq_none_of_not_isChild hc ht hbelow hnamed (by decide)
  show Dict.get? _ Key.type = _
  rw [get?_group, hnone, Option.none_or, Header.get?_members]
  rfl

end

/-- With minimal types none is written that comes down already. -/
theorem Grows.type_ne (hc : s.Consistent) (ht : s.Titled) {i : Option TokenType} {v : Json}
    {n : Node} {above : List Node} {e : Entry NodeId} (h : s.Grows above n e)
    (hwrite : writeEntry true s.aliasText i e = .ok v) (ha : s.Around n.parent above)
    (hn : s.node? n.id = some n) {raw : Json} (hraw : v.member? Key.type = some raw) :
    i.map typeText ≠ some raw := by
  intro hi
  obtain ⟨type, rfl, rfl⟩ := Option.map_eq_some_iff.1 hi
  obtain ⟨t, hcontent, -⟩ | ⟨g, hcontent, -⟩ := id h
  · rw [h.type_of_token hwrite hcontent] at hraw
    obtain ⟨type', htype, he⟩ := Option.map_eq_some_iff.1 hraw
    exact tokenType_ne htype (congrArg some (typeText_injective he).symm)
  · rw [h.type_of_group hc ht hwrite ha hn hcontent] at hraw
    obtain ⟨type', htype, he⟩ := Option.map_eq_some_iff.1 hraw
    exact writtenType_ne htype (congrArg some (typeText_injective he).symm)

section

variable (hc : s.Consistent) (ht : s.Titled) {minimal : Bool} {doc : Json}
  (hdoc : Tree.write minimal s = .ok doc)

include hc ht hdoc

/-- What is written nearest to the children of a parent is the type that comes down to them. -/
theorem Around.nearestType_eq {p : Option NodeId} {above : List Node} (ha : s.Around p above) :
    nearestType doc (pathOf above) = (typeBelow above).map typeText := by
  induction ha with
  | root =>
    obtain ⟨named, hnamed, rfl⟩ := exists_root_members hdoc
    have htop : s.Around none [] := .root
    exact (get?_byName named _).trans (get?_eq_none_of_not_isChild hc ht htop hnamed (by decide))
  | @up id n above stored group rest ih =>
    obtain rfl := hc.id_of_node? stored
    obtain ⟨g, hg⟩ := Node.isGroup_iff.1 group
    obtain ⟨e, v, hgrows, hwrite, hat⟩ :=
      rest.exists_written hc ht hdoc stored (Node.isEntry_iff.2 (.inr group))
    rw [pathOf_cons, nearestType_concat, hat, Option.bind_some,
      hgrows.type_of_group hc ht hwrite rest stored hg, ih, rest.typeBelow_eq hc stored,
      ← Option.map_or, writtenType_or, typeBelow_cons hg, rest.typeBelow_eq hc stored]

end

/--
**Minimal types lose nothing and repeat nothing.** In a document that is written
with minimal types every entry is that of a node, and no entry has the type that
is written nearest around it. Where a token has its place, the nearest type that
is written there or further up is the one that it declares, or else that its
nearest group declares that declares one, or else that of the token's literal;
and if there is none of these, no type is written there.
-/
theorem write_types (hs : s.Reachable) (ht : s.Titled) {doc : Json}
    (hdoc : Tree.write true s = .ok doc) :
    (∀ path k v, (∀ k' ∈ path ++ [k], Name.isChild k') → doc.at? (path ++ [k]) = some v →
      (∃ n, s.Stands n (path ++ [k])) ∧
      ∀ type, v.member? Key.type = some type → nearestType doc path ≠ some type) ∧
    ∀ n path t, s.Stands n path → n.content = .token t →
      (∃ v raw, doc.at? path = some v ∧ v.member? Key.value = some raw) ∧
      nearestType doc path = ((s.ownType n).or (t.value.literal?.map Literal.type)).map
        fun type => .string type.name := by
  have hc := hs.consistent
  constructor
  · intro path k v hnames hv
    obtain ⟨n, hstands⟩ := exists_stands hc ht hdoc (by simp) hnames hv
    refine ⟨⟨n, hstands⟩, fun type htype => ?_⟩
    obtain ⟨hn, hentry, above, ha, he⟩ := hstands
    obtain ⟨e, v', hgrows, hwrite, hat⟩ := ha.exists_written hc ht hdoc hn hentry
    rw [← he] at hat
    cases hv.symm.trans hat
    rw [(List.append_inj' he rfl).1, ha.nearestType_eq hc ht hdoc, ha.typeBelow_eq hc hn]
    exact hgrows.type_ne hc ht hwrite ha hn htype
  · rintro n path t ⟨hn, hentry, above, ha, rfl⟩ hcontent
    obtain ⟨e, v, hgrows, hwrite, hat⟩ := ha.exists_written hc ht hdoc hn hentry
    constructor
    · obtain ⟨ms, rfl, -, ⟨-, raw, -, -, hraw⟩ | ⟨g, hg, -⟩⟩ := hgrows.shownBy hc ht ha hn hwrite
      · exact ⟨_, raw, hat, hraw⟩
      · cases hcontent.symm.trans hg
    · rw [nearestType_concat, hat, Option.bind_some, hgrows.type_of_token hwrite hcontent,
        ha.nearestType_eq hc ht hdoc, ha.typeBelow_eq hc hn, ← Option.map_or, tokenType_or,
        ownType, hcontent]
      rfl

/-- In a group of dimensions another one, with a token that says so again and a group of numbers;
besides them a number and an alias without a type. -/
def layeredNodes : List Node :=
  let token (id : String) (parent : Option NodeId) (type : Option TokenType) (value : TokenValue) :
      Node := ⟨⟨id⟩, parent, "a0", .token ⟨id, .none, type, value⟩⟩
  let one : TokenValue := .literal (.number (.integer 1))
  [⟨⟨"sizes"⟩, none, "a0", .group ⟨"sizes", .none, some .dimension⟩⟩,
    ⟨⟨"inner"⟩, some ⟨"sizes"⟩, "a0", .group ⟨"inner", .none, some .dimension⟩⟩,
    ⟨⟨"counts"⟩, some ⟨"inner"⟩, "a0", .group ⟨"counts", .none, some .number⟩⟩,
    token "again" (some ⟨"inner"⟩) (some .dimension) (.literal (.dimension ⟨.integer 2, .px⟩)),
    token "many" (some ⟨"counts"⟩) none one, token "free" none none one,
    token "link" none none (.aliasTo (.id ⟨"free"⟩))]

/-- Two of the four declared types are left out, and the number that is in no group has its own. -/
def layeredDocument : Json :=
  .object [
    ("sizes", .object [(Key.type, .string "dimension"),
      ("inner", .object [
        ("counts", .object [(Key.type, .string "number"),
          ("many", .object [(Key.value, .number (.integer 1))])]),
        ("again", .object [(Key.value,
          .object [("value", .number (.integer 2)), ("unit", .string "px")])])])]),
    ("free", .object [(Key.type, .string "number"), (Key.value, .number (.integer 1))]),
    ("link", .object [(Key.value, .string "\x7bfree\x7d")])]

theorem write_types_layered :
    ((ofNodes layeredNodes).Reachable ∧ (ofNodes layeredNodes).Titled ∧
      Tree.write true (ofNodes layeredNodes) = .ok layeredDocument) ∧
    nearestType layeredDocument ["sizes", "inner"] ≠ some (.string "number") ∧
    nearestType layeredDocument ["sizes", "inner", "again"] = some (.string "dimension") ∧
    nearestType layeredDocument ["sizes", "inner", "counts", "many"] = some (.string "number") ∧
    nearestType layeredDocument ["free"] = some (.string "number") ∧
    nearestType layeredDocument ["link"] = none := by
  have hnodes : (ofNodes layeredNodes).nodes = layeredNodes := by decide +kernel
  have ht : (ofNodes layeredNodes).Titled := by
    refine ⟨?_, ?_⟩ <;> rw [hnodes]
    · unfold Name.Valid
      decide
    · decide
  have hdoc : Tree.write true (ofNodes layeredNodes) = .ok layeredDocument := by decide +kernel
  have hsizes : (ofNodes layeredNodes).Around (some ⟨"sizes"⟩) [layeredNodes[0]] :=
    .up (by decide +kernel) (by decide) .root
  have hinner : (ofNodes layeredNodes).Around (some ⟨"inner"⟩) [layeredNodes[1], layeredNodes[0]] :=
    .up (by decide +kernel) (by decide) hsizes
  have hcounts : (ofNodes layeredNodes).Around (some ⟨"counts"⟩)
      [layeredNodes[2], layeredNodes[1], layeredNodes[0]] :=
    .up (by decide +kernel) (by decide) hinner
  obtain ⟨hrepeat, htypes⟩ := write_types (reachable_ofNodes layeredNodes) ht hdoc
  refine ⟨⟨reachable_ofNodes _, ht, hdoc⟩, ?_, ?_, ?_, ?_, ?_⟩
  · exact (hrepeat ["sizes", "inner"] "counts" _ (by decide) rfl).2 _ rfl
  · have hstands : (ofNodes layeredNodes).Stands layeredNodes[3] ["sizes", "inner", "again"] :=
      ⟨by decide +kernel, by decide, _, hinner, by decide⟩
    exact (htypes _ _ _ hstands rfl).2.trans (by decide +kernel)
  · have hstands : (ofNodes layeredNodes).Stands layeredNodes[4]
        ["sizes", "inner", "counts", "many"] :=
      ⟨by decide +kernel, by decide, _, hcounts, by decide⟩
    exact (htypes _ _ _ hstands rfl).2.trans (by decide +kernel)
  · have hstands : (ofNodes layeredNodes).Stands layeredNodes[5] ["free"] :=
      ⟨by decide +kernel, by decide, [], .root, by decide⟩
    exact (htypes _ _ _ hstands rfl).2.trans (by decide +kernel)
  · have hstands : (ofNodes layeredNodes).Stands layeredNodes[6] ["link"] :=
      ⟨by decide +kernel, by decide, [], .root, by decide⟩
    exact (htypes _ _ _ hstands rfl).2.trans (by decide +kernel)

end Store

end DesignTokens
