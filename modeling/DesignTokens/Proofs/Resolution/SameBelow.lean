/-
Stores that differ at the top alone. Below each node they have the same
children, and at the top the same tokens and groups by name; sets and modifiers
may stand there in another order. So a walk down from a parent finds the same
token, and a container opens the same layers.
-/
import Mathlib.Data.List.Basic
import DesignTokens.Resolution.Lookup

namespace DesignTokens.Store

/-- Two stores with the same children below each node, and the same tokens and groups by name at
the top. -/
structure SameBelow (s t : Store) : Prop where
  ids : ∀ id, id ∈ s.ids ↔ id ∈ t.ids
  children : ∀ id, s.children (some id) = t.children (some id)
  token? : ∀ name, (s.children none).find? (fun n => n.isToken && n.name = name) =
    (t.children none).find? fun n => n.isToken && n.name = name
  group? : ∀ name, (s.children none).find? (fun n => n.isGroup && n.name = name) =
    (t.children none).find? fun n => n.isGroup && n.name = name

namespace SameBelow

variable {s t : Store} (h : s.SameBelow t)

include h

theorem ownToken? (group : NodeId) : s.ownToken? group = t.ownToken? group := by
  rw [Store.ownToken?, Store.ownToken?, h.children]

theorem tokenBelow? (parent : Option NodeId) (names : List String) :
    s.tokenBelow? parent names = t.tokenBelow? parent names := by
  have htoken : ∀ name, (s.children parent).find? (fun n => n.isToken && n.name = name) =
      (t.children parent).find? fun n => n.isToken && n.name = name := by
    cases parent with
    | none => exact h.token?
    | some id => exact fun _ => by rw [h.children]
  have hgroup : ∀ name, (s.children parent).find? (fun n => n.isGroup && n.name = name) =
      (t.children parent).find? fun n => n.isGroup && n.name = name := by
    cases parent with
    | none => exact h.group?
    | some id => exact fun _ => by rw [h.children]
  match names with
  | [] => rfl
  | [name] => simp only [Store.tokenBelow?, htoken, hgroup, h.ownToken?]
  | name :: next :: names =>
    simp only [Store.tokenBelow?, hgroup]
    cases (t.children parent).find? fun n => n.isGroup && n.name = name with
    | none => rfl
    | some g => exact tokenBelow? (some g.id) (next :: names)

theorem chosenContext? (active : List (NodeId × NodeId)) (id : NodeId) (m : Modifier) :
    s.chosenContext? active id m = t.chosenContext? active id m := by
  simp only [Store.chosenContext?, contexts, h.children]

/-- A container opens the same layers; the induction is on the nodes that are not yet opened up. -/
theorem containerLayers (active : List (NodeId × NodeId)) (visited : List NodeId) (n : Node) :
    s.containerLayers active visited n = t.containerLayers active visited n := by
  rw [Store.containerLayers, Store.containerLayers]
  cases n.content with
  | token | group | set | context => rfl
  | modifier m => simp only [h.chosenContext?]
  | resolver =>
    simp only [← h.ids]
    split
    · next hv =>
      have hlt := unvisited_cons_lt hv.1 hv.2
      rw [h.children]
      exact List.flatMap_congr fun c _ => containerLayers active (n.id :: visited) c
    · rfl
termination_by s.unvisited visited

end SameBelow

end DesignTokens.Store
