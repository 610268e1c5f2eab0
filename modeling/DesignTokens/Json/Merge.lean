/-
Deep merge of JSON values. Two objects are merged key by key, the base's keys
first and in place, the overlay's new keys behind them; unless both are leaves
by a given test, for then the overlay's object stands alone. Anything else in
the overlay replaces what the base has.
-/
import DesignTokens.Json.Basic

namespace DesignTokens.Json

mutual

/-- `base` with `overlay` merged into it. -/
def merge (isLeaf : Members → Bool) (base : Json) : Json → Json
  | .object upper =>
    match base with
    | .object lower =>
      if isLeaf lower && isLeaf upper then .object upper
      else .object (mergeMembers isLeaf lower upper)
    | _ => .object upper
  | overlay => overlay

/-- Merges members one by one, in the overlay's order. -/
def mergeMembers (isLeaf : Members → Bool) (base : List (String × Json)) :
    List (String × Json) → List (String × Json)
  | [] => base
  | (k, v) :: upper =>
    let merged := match Dict.get? base k with
      | some u => merge isLeaf u v
      | none => v
    mergeMembers isLeaf (Dict.insert base k merged) upper

end

/-- Merges layers into the empty object, the later ones over the earlier ones. -/
def mergeLayers (isLeaf : Members → Bool) (layers : List Json) : Json :=
  layers.foldl (merge isLeaf) (.object [])

end DesignTokens.Json
