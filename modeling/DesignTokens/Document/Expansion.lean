/-
Local references inside values. Anywhere below a `$value`, an object that is a
local reference is replaced by what it refers to in the same document, whose
own references are followed in turn.

`expandWith` replaces each reference of a value by what a given action makes of
it. `follow` is that action: it may follow each target text once on the way
down, for a text that comes again closes a circle. `expandValues` does this for
all values of a document: an entry whose own value cannot be expanded is
reported and left out, with all that is below it, and the root alone stays.
-/
import DesignTokens.Document.Issue

namespace DesignTokens.Expansion

mutual

/-- A value with each local reference replaced by what an action makes of its target. -/
def expandWith {ε : Type} (follow : String → Except ε Json) : Json → Except ε Json
  | .object ms =>
    match Pointer.reference? (.object ms) with
    | some target => follow target
    | none => do return .object (← expandMembers follow ms)
  | .array items => do return .array (← expandItems follow items)
  | v => .ok v

/-- `expandWith` on the items of an array. -/
def expandItems {ε : Type} (follow : String → Except ε Json) :
    List Json → Except ε (List Json)
  | [] => .ok []
  | v :: vs => do
    let v ← expandWith follow v
    let vs ← expandItems follow vs
    return v :: vs

/-- `expandWith` on the members of an object. -/
def expandMembers {ε : Type} (follow : String → Except ε Json) :
    List (String × Json) → Except ε (List (String × Json))
  | [] => .ok []
  | (k, v) :: ms => do
    let v ← expandWith follow v
    let ms ← expandMembers follow ms
    return (k, v) :: ms

end

mutual

/-- The targets of all local references in a value. -/
def targets : Json → List String
  | .object ms =>
    match Pointer.reference? (.object ms) with
    | some target => [target]
    | none => targetsOfMembers ms
  | .array items => targetsOfItems items
  | _ => []

/-- The targets in the items of an array. -/
def targetsOfItems : List Json → List String
  | [] => []
  | v :: vs => targets v ++ targetsOfItems vs

/-- The targets in the members of an object. -/
def targetsOfMembers : List (String × Json) → List String
  | [] => []
  | (_, v) :: ms => targets v ++ targetsOfMembers ms

end

/-- The targets that are left once one has been followed. -/
def without (untried : List String) (target : String) : List String :=
  untried.filter (· ≠ target)

theorem length_without_lt {target : String} {untried : List String} (h : target ∈ untried) :
    (without untried target).length < untried.length := by
  rw [without, List.length_filter_lt_length_iff_exists]
  exact ⟨target, h, by simp⟩

/--
What a target stands for in a document. `untried` holds the targets that may
still be followed, `chain` those that were, in order.
-/
def follow (doc : Json) (untried chain : List String) (target : String) :
    Except ReferenceError Json :=
  if _h : target ∈ untried then
    match Pointer.atFragment doc target with
    | .error e => .error (.unresolved target e)
    | .ok found => expandWith (follow doc (without untried target) (chain ++ [target])) found
  else .error (.circular (chain ++ [target]))
termination_by untried.length
decreasing_by exact length_without_lt _h

/-- A value with all its local references replaced. -/
def expand (doc v : Json) : Except ReferenceError Json :=
  expandWith (follow doc (targets v ++ targets doc) []) v

mutual

/-- The entry at a place with its values expanded; nothing if its own value cannot be. -/
def expandEntry (doc : Json) (place : Pointer.Path) : Json → Reading (Option Json)
  | .object ms =>
    match Dict.get? ms Key.value with
    | none => do return some (.object (← expandChildren doc place none ms))
    | some raw =>
      match expand doc raw with
      | .error e => .withIssue none (place ++ [Key.value]) (.reference e)
      | .ok v => do return some (.object (← expandChildren doc place (some v) ms))
  | v => pure (some v)

/-- The members of an entry: its own value is given, children are expanded, the rest stays. -/
def expandChildren (doc : Json) (place : Pointer.Path) (own : Option Json) :
    List (String × Json) → Reading (List (String × Json))
  | [] => pure []
  | (k, v) :: ms => do
    let v ←
      if k = Key.value then pure own
      else if Name.isChild k then expandEntry doc (place ++ [k]) v
      else pure (some v)
    let ms ← expandChildren doc place own ms
    return (match v with
      | some v => (k, v) :: ms
      | none => ms)

end

/-- A document with all its values expanded; a root whose own value cannot be stays as it is. -/
def expandValues (doc : Json) (base : Pointer.Path) : Reading Json := do
  return (← expandEntry doc base doc).getD doc

end DesignTokens.Expansion
