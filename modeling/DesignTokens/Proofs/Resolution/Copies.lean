/-
Copies of a store in another one, under other ids and parents but with their
contents. Names lead from a parent to the same tokens in both (`Copies`).

Where copies are called by the same paths, have the same types and see the same
targets (`Copied`), they resolve as the tokens do (`Copied.resolve`); a reference
by id names the old id, and is not followed here.
-/
import DesignTokens.Proofs.Resolution.Target
import DesignTokens.Proofs.Resolution.Tracks

namespace DesignTokens.Store

/-- Below some parents the children of a store stand in another one, with their contents. -/
structure Copies (within : Option NodeId → Prop) (place : Option NodeId → Option NodeId)
    (copy : Node → Node) (s t : Store) : Prop where
  id : ∀ n, some (copy n).id = place (some n.id)
  content : ∀ n, (copy n).content = n.content
  children : ∀ p, within p → t.children (place p) = (s.children p).map copy
  closed : ∀ p n, within p → n ∈ s.children p → within (some n.id)

namespace Copies

variable {within : Option NodeId → Prop} {place : Option NodeId → Option NodeId}
  {copy : Node → Node} {s t : Store} (h : Copies within place copy s t)

include h

theorem find?_child {p : Option NodeId} (hp : within p) {q : Node → Bool}
    (hq : ∀ n, q (copy n) = q n) :
    (t.children (place p)).find? q = ((s.children p).find? q).map copy := by
  have hqs : q ∘ copy = q := funext hq
  rw [h.children p hp, List.find?_map, hqs]

theorem isToken_name (name : String) (n : Node) :
    ((copy n).isToken && decide ((copy n).name = name)) = (n.isToken && decide (n.name = name)) := by
  rw [Node.isToken, Node.token?, Node.name, h.content]
  rfl

theorem isGroup_name (name : String) (n : Node) :
    ((copy n).isGroup && decide ((copy n).name = name)) = (n.isGroup && decide (n.name = name)) := by
  rw [Node.isGroup, Node.group?, Node.name, h.content]
  rfl

theorem ownToken? {n : Node} (hn : within (some n.id)) :
    t.ownToken? (copy n).id = (s.ownToken? n.id).map copy := by
  rw [Store.ownToken?, h.id]
  exact h.find?_child hn (h.isToken_name rootTokenName)

theorem tokenBelow? {p : Option NodeId} (hp : within p) (names : List String) :
    t.tokenBelow? (place p) names = (s.tokenBelow? p names).map copy := by
  have hgroup : ∀ name, (t.children (place p)).find? (fun n => n.isGroup && n.name = name) =
      ((s.children p).find? fun n => n.isGroup && n.name = name).map copy :=
    fun name => h.find?_child hp (h.isGroup_name name)
  have htoken : ∀ name, (t.children (place p)).find? (fun n => n.isToken && n.name = name) =
      ((s.children p).find? fun n => n.isToken && n.name = name).map copy :=
    fun name => h.find?_child hp (h.isToken_name name)
  have hwithin : ∀ {q : Node → Bool} {n : Node}, (s.children p).find? q = some n →
      within (some n.id) := fun hn => h.closed p _ hp (List.mem_of_find?_eq_some hn)
  match names with
  | [] => rfl
  | [name] =>
    simp only [Store.tokenBelow?, htoken, hgroup]
    cases (s.children p).find? fun n => n.isToken && n.name = name with
    | some token => rfl
    | none =>
      cases hg : (s.children p).find? fun n => n.isGroup && n.name = name with
      | none => rfl
      | some g => exact h.ownToken? (hwithin hg)
  | name :: next :: names =>
    simp only [Store.tokenBelow?, hgroup]
    cases hg : (s.children p).find? fun n => n.isGroup && n.name = name with
    | none => rfl
    | some g =>
      simp only [Option.map_some]
      rw [h.id]
      exact tokenBelow? (hwithin hg) (next :: names)

end Copies

/-! ## Resolution -/

/-- No token refers to another by id. -/
def ByPaths (s : Store) : Prop := ∀ n ∈ s.nodes, ∀ t, n.content = .token t →
  ∀ ref ∈ t.value.aliases, ∃ dotted, ref = .path dotted

/-- Whether an id is that of a token. -/
def HasToken (s : Store) (id : NodeId) : Prop := ∃ n, s.node? id = some n ∧ n.isToken

/-- Each stored node has a copy in another store that is called by the same path and has the same
type, and paths lead from the copy to the copies of what they lead to from the node. -/
structure Copied (f : NodeId → NodeId) (copy : Node → Node) (s t : Store) : Prop where
  injective : ∀ a b, f a = f b → a = b
  id : ∀ n, (copy n).id = f n.id
  content : ∀ n, (copy n).content = n.content
  stored : ∀ n, s.node? n.id = some n → t.node? (f n.id) = some (copy n)
  displayOf : ∀ n, s.node? n.id = some n → t.displayOf (f n.id) = s.displayOf n.id
  ownType : ∀ n, s.node? n.id = some n → t.ownType (copy n) = s.ownType n
  target : ∀ n dotted, s.node? n.id = some n →
    t.target (.path dotted) (f n.id) = (s.target (.path dotted) n.id).map copy

/-- Where no token refers to another by id, the copies of the tokens stand for them. -/
theorem Copied.tracks {f : NodeId → NodeId} {copy : Node → Node} {s t : Store}
    (h : Copied f copy s t) (hc : s.Consistent) (hp : s.ByPaths) : Tracks s.HasToken f s t where
  injective a b _ _ := h.injective a b
  displayOf id := by
    rintro ⟨n, hn, -⟩
    obtain rfl := hc.id_of_node? hn
    exact h.displayOf n hn
  error id e := by
    rintro ⟨n, hn, htoken⟩ he
    obtain ⟨u, hu⟩ := Option.isSome_iff_exists.1 htoken
    cases he.symm.trans (tokenNode_eq_ok_iff.2 ⟨hn, token?_eq_some_iff.1 hu⟩)
  token id n u _ hn hu := by
    obtain rfl := hc.id_of_node? hn
    exact ⟨copy n, u, h.stored n hn, (h.content n).trans hu, rfl, h.ownType n hn⟩
  target id n u _ hn hu ref href := by
    obtain rfl := hc.id_of_node? hn
    obtain ⟨dotted, rfl⟩ := hp n (hc.node?_eq_some_iff.1 hn).1 u hu ref href
    rw [h.target n dotted hn]
    cases hm : s.target (.path dotted) n.id with
    | error e => exact .inl ⟨e, rfl, rfl⟩
    | ok m => exact .inr ⟨m, copy m, rfl, rfl, h.id m, m, hc.stored_of_target hm⟩

/-- A copy of a token resolves to what the token resolves to. -/
theorem Copied.resolve {f : NodeId → NodeId} {copy : Node → Node} {s t : Store}
    (h : Copied f copy s t) (hc : s.Consistent) (hp : s.ByPaths) {n : Node} (hn : n ∈ s.nodes)
    (htoken : n.isToken) : t.resolve (f n.id) = s.resolve n.id :=
  (h.tracks hc hp).resolve ⟨n, hc.node?_eq_some_iff.2 ⟨hn, rfl⟩, htoken⟩

end DesignTokens.Store
