/-
A tree document as the first of a list of sources. What is read of it there is
what is read of it alone, at other places: everything lies in the list, for
sources are merged before they are read as one tree, except for the references
inside values, which are replaced in each source by itself.

`Reading.sourced` is a reading at these other places. It goes along with every
step that a reading is made of, so one equation for each function of the reader
is enough, down to those that report something.
-/
import DesignTokens.Document.Tree.Basic
import DesignTokens.Proofs.Document.Expanded
import DesignTokens.Proofs.Document.Tree.Tidied

namespace DesignTokens

/-- An issue of a tree, where the tree is the first source of the list at a place. -/
def Issue.sourced (list : Pointer.Path) (i : Issue) : Issue :=
  match i.cause with
  | .reference _ => { i with path := list ++ "0" :: i.path }
  | _ => { i with path := list ++ i.path }

mutual

/-- An entry of a tree, where the tree is a source of the list at a place. -/
def Entry.sourced (list : Pointer.Path) : Entry Pointer.Path → Entry Pointer.Path
  | .token place t => .token (list ++ place) t
  | .group place g children => .group (list ++ place) g (forestSourced list children)

/-- `Entry.sourced` on siblings. -/
def forestSourced (list : Pointer.Path) :
    List (String × Entry Pointer.Path) → List (String × Entry Pointer.Path)
  | [] => []
  | (order, e) :: es => (order, e.sourced list) :: forestSourced list es

end

namespace Reading

variable {α β γ δ : Type} {list : Pointer.Path}

/-- What was read of a tree, where the tree is the first source of the list at a place. -/
def sourced (list : Pointer.Path) (f : α → β) (r : Reading α) : Reading β :=
  ⟨f r.value, r.issues.map (Issue.sourced list)⟩

/-- A reading goes on from other places as the one that it is made from does from its value. -/
theorem bind_sourced_value {r : Reading α} {k : α → Reading β} {f : α → γ} {g : β → δ}
    {r' : Reading γ} {k' : γ → Reading δ} (hr : r' = r.sourced list f)
    (hk : k' (f r.value) = (k r.value).sourced list g) :
    r' >>= k' = (r >>= k).sourced list g := by
  subst hr
  have hvalue : (k' (f r.value)).value = g (k r.value).value := congrArg Reading.value hk
  have hissues : (k' (f r.value)).issues = (k r.value).issues.map (Issue.sourced list) :=
    congrArg Reading.issues hk
  show (⟨_, _⟩ : Reading δ) = ⟨_, (r.issues ++ (k r.value).issues).map _⟩
  rw [List.map_append, ← hissues]
  exact congrArg (Reading.mk · _) hvalue

theorem bind_sourced {r : Reading α} {k : α → Reading β} {f : α → γ} {g : β → δ} {r' : Reading γ}
    {k' : γ → Reading δ} (hr : r' = r.sourced list f)
    (hk : ∀ a, k' (f a) = (k a).sourced list g) : r' >>= k' = (r >>= k).sourced list g :=
  bind_sourced_value hr (hk r.value)

/-- A reading that goes on without reading has the same issues. -/
theorem sourced_bind_pure (r : Reading α) (f : α → β) (g : β → γ) :
    (r.sourced list f >>= fun b => pure (g b)) = r.sourced list fun a => g (f a) := by
  show (⟨_, _ ++ []⟩ : Reading γ) = _
  rw [List.append_nil]
  rfl

end Reading

open Reading

/-! ## References inside values -/

namespace Expansion

variable (list : Pointer.Path)

mutual

theorem expandEntry_sourced (doc : Json) (place : Pointer.Path) : (v : Json) →
    expandEntry doc (list ++ "0" :: place) v = (expandEntry doc place v).sourced list id
  | .object ms => by
    rw [expandEntry, expandEntry]
    cases Dict.get? ms Key.value with
    | none =>
      exact bind_sourced (expandChildren_sourced doc place none ms) fun _ => rfl
    | some raw =>
      cases hraw : expand doc raw with
      | error e =>
        simp only [hraw, List.append_assoc, List.cons_append]
        rfl
      | ok v =>
        simp only [hraw]
        exact bind_sourced (expandChildren_sourced doc place (some v) ms) fun _ => rfl
  | .null | .bool _ | .number _ | .string _ | .array _ => rfl

theorem expandChildren_sourced (doc : Json) (place : Pointer.Path) (own : Option Json) :
    (ms : List (String × Json)) →
    expandChildren doc (list ++ "0" :: place) own ms =
      (expandChildren doc place own ms).sourced list id
  | [] => rfl
  | (k, v) :: ms => by
    have hmember : expandMember doc (list ++ "0" :: place) own k v =
        (expandMember doc place own k v).sourced list id := by
      have hplace : list ++ "0" :: place ++ [k] = list ++ "0" :: (place ++ [k]) := by
        rw [List.append_assoc, List.cons_append]
      simp only [expandMember, hplace, expandEntry_sourced doc (place ++ [k]) v]
      split
      · rfl
      · split <;> rfl
    rw [expandChildren_cons, expandChildren_cons]
    exact bind_sourced hmember fun _ =>
      bind_sourced (expandChildren_sourced doc place own ms) fun _ => rfl

end

theorem expandValues_sourced (doc : Json) :
    expandValues doc (list ++ ["0"]) = (expandValues doc []).sourced list id :=
  bind_sourced (expandEntry_sourced list doc [] doc) fun _ => rfl

end Expansion

/-! ## Trees -/

namespace Tree

variable (list : Pointer.Path)

theorem Header.add_sourced (h : Header) (place : Pointer.Path) (key : String) (raw : Json) :
    h.add (list ++ place) key raw = (h.add place key raw).sourced list id := by
  have hplace : list ++ place ++ [key] = list ++ (place ++ [key]) := List.append_assoc ..
  simp only [add, hplace]
  split
  · cases raw with
    | string name =>
      dsimp only
      cases TokenType.ofName? name <;> rfl
    | _ => rfl
  split
  · cases raw <;> rfl
  split
  · cases raw <;> rfl
  split
  · cases raw <;> rfl
  split <;> rfl

theorem Header.read_sourced (place : Pointer.Path) (h : Header) (ms : Members) :
    Header.read (list ++ place) h ms = (Header.read place h ms).sourced list id := by
  induction ms generalizing h with
  | nil => rfl
  | cons m ms ih =>
    obtain ⟨k, raw⟩ := m
    rw [Header.read, Header.read]
    split
    · refine bind_sourced (h.add_sourced list place k raw) fun h' => ?_
      cases h' with
      | none => rfl
      | some h' => exact ih h'
    · exact ih h

theorem readToken_sourced (place : Pointer.Path) (inherited : Option TokenType) (name : String)
    (h : Header) (raw : Json) : readToken (list ++ place) inherited name h raw =
      (readToken place inherited name h raw).sourced list (Option.map (Entry.sourced list)) := by
  have hplace : list ++ place ++ [Key.value] = list ++ (place ++ [Key.value]) :=
    List.append_assoc ..
  simp only [readToken, hplace]
  cases TokenValue.ofJson (h.declaredType.or inherited) raw <;> rfl

/-- An entry as it was read, if it was, where its tree is a source of the list at a place. -/
abbrev entrySourced (r : Reading (Option (Entry Pointer.Path))) :
    Reading (Option (Entry Pointer.Path)) :=
  r.sourced list (Option.map (Entry.sourced list))

theorem collect_sourced (rs : List (String × Reading (Option (Entry Pointer.Path)))) :
    collect (rs.map (Prod.map id (entrySourced list))) =
      (collect rs).sourced list (forestSourced list) := by
  induction rs with
  | nil => rfl
  | cons r rs ih =>
    rw [List.map_cons, Prod.map, collect, collect]
    refine bind_sourced rfl fun e => bind_sourced ih fun _ => ?_
    cases e <;> rfl

theorem arrange_sourced (own : Option (Reading (Option (Entry Pointer.Path))))
    (children : List (String × Reading (Option (Entry Pointer.Path)))) :
    arrange (own.map (entrySourced list)) (children.map (Prod.map id (entrySourced list))) =
      (arrange own children).sourced list (forestSourced list) := by
  have hsiblings : (own.map (entrySourced list)).toList.map (rootTokenName, ·) ++
        children.map (Prod.map id (entrySourced list)) =
      (own.toList.map (rootTokenName, ·) ++ children).map (Prod.map id (entrySourced list)) := by
    cases own <;> rfl
  have hlength : (own.map (entrySourced list)).toList.length = own.toList.length := by
    cases own <;> rfl
  have hread : ∀ l : List (String × Reading (Option (Entry Pointer.Path))),
      (l.map (Prod.map id (entrySourced list))).map (·.2) =
        (l.map (·.2)).map (entrySourced list) := fun l => by
    rw [List.map_map, List.map_map]
    rfl
  rw [arrange_eq, arrange_eq, hsiblings, hlength, List.length_map, ← map_rootFirst _ _ fun _ => rfl,
    hread, List.zip_map_right, collect_sourced]
  rfl

theorem map_readToken_sourced (place : Pointer.Path) (inherited : Option TokenType) (name : String)
    (h : Header) (value : Option Json) :
    value.map (readToken (list ++ place) inherited name h) =
      (value.map (readToken place inherited name h)).map (entrySourced list) := by
  cases value with
  | none => rfl
  | some raw => exact congrArg some (readToken_sourced list place inherited name h raw)

mutual

theorem readEntry_sourced (place : Pointer.Path) (inherited : Option TokenType) (name : String) :
    (raw : Json) → readEntry (list ++ place) inherited name raw =
      entrySourced list (readEntry place inherited name raw)
  | .object ms => by
    rw [readEntry, readEntry]
    split
    · rfl
    refine bind_sourced (Header.read_sourced list place .empty ms) fun h => ?_
    cases h with
    | none => rfl
    | some h =>
      dsimp only [id]
      split
      · split
        · rfl
        · split
          · rfl
          · exact readToken_sourced list place inherited name h _
      · split
        · exact readToken_sourced list place inherited name h _
        · have hchildren (own) := arrange_sourced list own
            (readChildren place (h.declaredType.or inherited) ms)
          simp only [← readChildren_sourced place (h.declaredType.or inherited) ms] at hchildren
          split
          · refine bind_sourced (f := Option.map (entrySourced list)) ?_ fun own => ?_
            · rw [List.append_assoc]
              rfl
            · exact bind_sourced (hchildren own) fun _ => rfl
          · rw [map_readToken_sourced]
            refine bind_sourced (f := Option.map (entrySourced list)) rfl fun own => ?_
            exact bind_sourced (hchildren own) fun _ => rfl
  | .null | .bool _ | .number _ | .string _ | .array _ => by
    rw [readEntry, readEntry]
    · split <;> rfl
    all_goals
      intro ms hms
      cases hms

theorem readChildren_sourced (place : Pointer.Path) (inherited : Option TokenType) :
    (ms : List (String × Json)) → readChildren (list ++ place) inherited ms =
      (readChildren place inherited ms).map (Prod.map id (entrySourced list))
  | [] => rfl
  | (k, raw) :: ms => by
    rw [readChildren, readChildren]
    split
    · rw [List.map_cons, List.append_assoc, readEntry_sourced (place ++ [k]) inherited k raw,
        readChildren_sourced place inherited ms]
      rfl
    · exact readChildren_sourced place inherited ms

end

theorem checkRootKeys_sourced (place : Pointer.Path) (ms : Members) :
    checkRootKeys (list ++ place) ms = (checkRootKeys place ms).sourced list id := by
  induction ms with
  | nil => rfl
  | cons m ms ih =>
    obtain ⟨k, raw⟩ := m
    rw [checkRootKeys, checkRootKeys]
    split
    · refine bind_sourced (f := id) ?_ fun _ => ih
      rw [List.append_assoc]
      rfl
    · exact ih

theorem readRoot_sourced (ms : Members) :
    readRoot list ms = (readRoot [] ms).sourced list (forestSourced list) := by
  have hkeys := checkRootKeys_sourced list [] ms
  have hchildren := readChildren_sourced list [] none ms
  rw [List.append_nil] at hkeys hchildren
  refine bind_sourced hkeys fun _ => ?_
  rw [hchildren, List.filter_map]
  exact arrange_sourced list none _

end Tree

end DesignTokens
