/-
Several keys at once. Where a side is open the keys step away from the other
bound one by one; between two bounds the interval is halved, so that keys stay
short.
-/
import DesignTokens.OrderKey.Basic

namespace DesignTokens.OrderKey

/-- Ascending keys above a bound. -/
def ascending (lower : Option String) : Nat → Except KeyError (List String)
  | 0 => .ok []
  | n + 1 => do
    let k ← keyWithin lower none
    let ks ← ascending (some k) n
    return k :: ks

/-- Ascending keys below a bound, found from the last to the first. -/
def descending (upper : Option String) : Nat → Except KeyError (List String)
  | 0 => .ok []
  | n + 1 => do
    let k ← keyWithin none upper
    let ks ← descending (some k) n
    return ks ++ [k]

/-- Ascending keys between two bounds. -/
def bisecting (lower upper : String) : Nat → Except KeyError (List String)
  | 0 => .ok []
  | n + 1 => do
    let pivot ← keyWithin (some lower) (some upper)
    let before ← bisecting lower pivot ((n + 1) / 2)
    let after ← bisecting pivot upper (n - (n + 1) / 2)
    return before ++ pivot :: after
termination_by n => n

/-- `n` ascending keys strictly between two bounds. No key at all looks at no bound. -/
def keysWithin (lower upper : Option String) (n : Nat) : Except KeyError (List String) :=
  match lower, upper with
  | lower, none => ascending lower n
  | none, upper => descending upper n
  | some lower, some upper => bisecting lower upper n

/-- The keys of `n` siblings that are given all at once. -/
def initial (n : Nat) : List String :=
  match keysWithin none none n with
  | .ok keys => keys
  | .error _ => []

/-- The key for a new sibling in front of the one at a position, or behind all of them. -/
def keyAt (keys : List String) (position : Nat) : Except KeyError String :=
  let position := min position keys.length
  keyWithin (if position = 0 then none else keys[position - 1]?) keys[position]?

end DesignTokens.OrderKey
