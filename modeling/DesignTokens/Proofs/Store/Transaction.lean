/-
Transactions: writes are staged one after another and then committed together,
or dropped where the work fails.

A sequence of writes is a list of changes to single ids (`Write.changes`), of
which the last one to an id counts (`lastChange?`). A batch keeps just that for
each id, in the order in which the ids first came, and so what a transaction
reads is what its commit would leave.

On the nodes by id a commit is a list of changes to a dictionary. Each of them
touches its own key alone: what stays keeps its order, with its value as the
change to its key leaves it, and what is new goes behind (`Dict.changeAll_eq`).
-/
import DesignTokens.Proofs.Store.Reachable

namespace DesignTokens

namespace Dict

variable {κ ν : Type} [DecidableEq κ]

/-! ## Changes to a dictionary -/

/-- One change: a value is written under a key, or the key is removed. -/
def change (d : List (κ × ν)) (k : κ) : Option ν → List (κ × ν)
  | some v => insert d k v
  | none => erase d k

/-- Makes changes one after another. -/
def changeAll (d : List (κ × ν)) (b : List (κ × Option ν)) : List (κ × ν) :=
  b.foldl (fun d e => change d e.1 e.2) d

theorem get?_change_self (d : List (κ × ν)) (k : κ) (c : Option ν) : get? (change d k c) k = c := by
  cases c with
  | none => exact get?_erase_self d k
  | some v => exact get?_insert_self d k v

theorem get?_change_of_ne (d : List (κ × ν)) {k k' : κ} (c : Option ν) (h : k ≠ k') :
    get? (change d k c) k' = get? d k' := by
  cases c with
  | none => exact get?_erase_of_ne d h
  | some v => exact get?_insert_of_ne d v h

theorem nodup_keys_change {d : List (κ × ν)} (h : (keys d).Nodup) (k : κ) (c : Option ν) :
    (keys (change d k c)).Nodup := by
  cases c with
  | none => exact nodup_keys_erase h k
  | some v => exact nodup_keys_insert h k v

/-- What is found under a key is what its change leaves there. -/
theorem get?_changeAll (d : List (κ × ν)) {b : List (κ × Option ν)} (hb : (keys b).Nodup) (k : κ) :
    get? (changeAll d b) k = (get? b k).getD (get? d k) := by
  induction b generalizing d with
  | nil => rfl
  | cons e b ih =>
    rw [keys_cons, List.nodup_cons] at hb
    rw [changeAll, List.foldl_cons, ← changeAll, ih _ hb.2]
    by_cases hk : e.1 = k
    · subst hk
      rw [get?_eq_none_iff.2 hb.1, Option.getD_none, get?_change_self]
      simp [get?]
    · rw [get?_change_of_ne d e.2 hk]
      simp [get?, hk]

/-- A pair as changes leave it, if they do. -/
def kept (b : List (κ × Option ν)) (p : κ × ν) : Option (κ × ν) :=
  ((get? b p.1).getD (some p.2)).map (p.1, ·)

/-- The pair that changes add under a key, if it is not there before. -/
def added (d : List (κ × ν)) (b : List (κ × Option ν)) (k : κ) : Option (κ × ν) :=
  if k ∈ keys d then none else ((get? b k).getD none).map (k, ·)

theorem kept_cons_of_ne {k : κ} (c : Option ν) (b : List (κ × Option ν)) {p : κ × ν} (h : p.1 ≠ k) :
    kept ((k, c) :: b) p = kept b p := by
  simp [kept, get?, Ne.symm h]

theorem filterMap_kept_cons {k : κ} (c : Option ν) (b : List (κ × Option ν)) {d : List (κ × ν)}
    (h : k ∉ keys d) : d.filterMap (kept ((k, c) :: b)) = d.filterMap (kept b) :=
  List.filterMap_congr fun p hp =>
    kept_cons_of_ne c b fun he => h (he ▸ mem_keys_of_mem (v := p.2) hp)

/-- The first change, seen behind all the others: it keeps, drops or adds the pair under its key. -/
theorem filterMap_kept_change {d : List (κ × ν)} (hd : (keys d).Nodup) {k : κ} (c : Option ν)
    {b : List (κ × Option ν)} (hb : k ∉ keys b) :
    (change d k c).filterMap (kept b)
      = d.filterMap (kept ((k, c) :: b)) ++ (added d ((k, c) :: b) k).toList := by
  have hnone : get? b k = none := get?_eq_none_iff.2 hb
  cases c with
  | none =>
    have hadded : added d ((k, none) :: b) k = none := by simp [added, get?]
    rw [hadded, Option.toList_none, List.append_nil, change, erase, List.filterMap_filter]
    refine List.filterMap_congr fun p _ => ?_
    by_cases hp : p.1 = k
    · simp [hp, kept, get?]
    · simp [hp, kept_cons_of_ne]
  | some v =>
    have hself : kept b (k, v) = some (k, v) := by simp [kept, hnone]
    rw [change]
    induction d with
    | nil => simp [insert, hself, added, get?]
    | cons p d ih =>
      rw [keys_cons, List.nodup_cons] at hd
      by_cases hp : p.1 = k
      · have hrest := filterMap_kept_cons (some v) b (hp ▸ hd.1)
        have hhead : kept ((k, some v) :: b) p = some (k, v) := by simp [kept, hp, get?]
        simp [insert, hp, hself, hhead, hrest, added]
      · have hp' : k ≠ p.1 := Ne.symm hp
        have hadded : added (p :: d) ((k, some v) :: b) k = added d ((k, some v) :: b) k := by
          simp [added, hp']
        rw [insert, if_neg hp, List.filterMap_cons, ih hd.2, hadded, List.filterMap_cons,
          kept_cons_of_ne _ _ hp]
        cases kept b p <;> simp

/-- **Changes under distinct keys, all at once.** The pairs that stay keep their
order, and the new ones follow in the order of the changes. -/
theorem changeAll_eq {d : List (κ × ν)} (hd : (keys d).Nodup) {b : List (κ × Option ν)}
    (hb : (keys b).Nodup) :
    changeAll d b = d.filterMap (kept b) ++ (keys b).filterMap (added d b) := by
  induction b generalizing d with
  | nil =>
    have hkept : (kept [] : κ × ν → Option (κ × ν)) = some := by
      funext p
      simp [kept]
    simp [changeAll, hkept]
  | cons e b ih =>
    obtain ⟨k, c⟩ := e
    rw [keys_cons, List.nodup_cons] at hb
    have hothers : ∀ k' ∈ keys b, added (change d k c) b k' = added d ((k, c) :: b) k' := by
      intro k' hk'
      have hne : k ≠ k' := fun he => hb.1 (he ▸ hk')
      have hmem : k' ∈ keys (change d k c) ↔ k' ∈ keys d := by
        rw [← isSome_get?_iff, get?_change_of_ne d c hne, isSome_get?_iff]
      simp [added, hmem, get?, hne]
    calc changeAll d ((k, c) :: b)
        = changeAll (change d k c) b := rfl
      _ = (change d k c).filterMap (kept b) ++ (keys b).filterMap (added (change d k c) b) :=
          ih (nodup_keys_change hd k c) hb.2
      _ = d.filterMap (kept ((k, c) :: b)) ++ (keys ((k, c) :: b)).filterMap
            (added d ((k, c) :: b)) := by
          rw [filterMap_kept_change hd c hb.1, List.filterMap_congr hothers, List.append_assoc,
            keys_cons, List.filterMap_cons]
          cases added d ((k, c) :: b) k <;> rfl

end Dict

/-! ## What writes stage -/

namespace Write

/-- The changes that a write makes, to one id each. -/
def changes : Write → List (NodeId × Option Node)
  | set n => [(n.id, some n)]
  | delete id => [(id, none)]
  | extend ns => ns.map fun n => (n.id, some n)

theorem id_of_mem_changes {w : Write} {id : NodeId} {n : Node} (h : (id, some n) ∈ w.changes) :
    n.id = id := by
  cases w with
  | set m =>
    obtain ⟨rfl, rfl⟩ : id = m.id ∧ n = m := by simpa [changes] using h
    rfl
  | delete id' => simp [changes] at h
  | extend ns =>
    obtain ⟨m, -, he⟩ := List.mem_map.1 h
    cases he
    rfl

/-- The last change that writes make to an id: to a node, or to nothing. -/
def lastChange? (ws : List Write) (id : NodeId) : Option (Option Node) :=
  Dict.get? (ws.flatMap changes).reverse id

/-- The ids that are written to, in the order in which they first are. -/
def stagedIds (ws : List Write) : List NodeId := (Dict.keys (ws.flatMap changes)).eraseDups

/-- What stands under an id after writes, where something or nothing stood before. -/
def leaves (ws : List Write) (id : NodeId) (old : Option Node) : Option Node :=
  (lastChange? ws id).getD old

/-- Work that makes writes one after another and then succeeds or fails. -/
def script {ε : Type} (ws : List Write) (outcome : Except ε Unit) (b : Batch) : Except ε Batch :=
  outcome.map fun _ => ws.foldl Batch.write b

end Write

open Write

namespace Batch

theorem write_eq_insertAll (b : Batch) (w : Write) : b.write w = Dict.insertAll b w.changes := by
  cases w with
  | set n => rfl
  | delete id => rfl
  | extend ns =>
    rw [changes, Dict.insertAll, List.foldl_map]
    rfl

/-- The batch that writes fill. -/
def ofWrites (ws : List Write) : Batch := ws.foldl write empty

theorem ofWrites_eq (ws : List Write) : ofWrites ws = Dict.insertAll [] (ws.flatMap changes) := by
  have hall : ∀ b : Batch, ws.foldl write b = Dict.insertAll b (ws.flatMap changes) := by
    induction ws with
    | nil => exact fun _ => rfl
    | cons w ws ih =>
      intro b
      rw [List.foldl_cons, ih, write_eq_insertAll, List.flatMap_cons, Dict.insertAll, Dict.insertAll,
        Dict.insertAll, List.foldl_append]
  exact hall empty

theorem nodup_keys_ofWrites (ws : List Write) : (Dict.keys (ofWrites ws)).Nodup := by
  rw [ofWrites_eq]
  exact Dict.nodup_keys_insertAll _

theorem keys_ofWrites (ws : List Write) : Dict.keys (ofWrites ws) = stagedIds ws := by
  rw [ofWrites_eq, Dict.keys_insertAll, stagedIds]

theorem get?_ofWrites (ws : List Write) (id : NodeId) :
    Dict.get? (ofWrites ws) id = lastChange? ws id := by
  rw [ofWrites_eq, Dict.get?_insertAll, Dict.get?_nil, Option.or_none, lastChange?]

theorem id_of_mem_ofWrites {ws : List Write} {id : NodeId} {n : Node}
    (h : (id, some n) ∈ ofWrites ws) : n.id = id := by
  have hlast : lastChange? ws id = some (some n) := by
    rw [← get?_ofWrites, Dict.get?_of_mem (nodup_keys_ofWrites ws) h]
  obtain ⟨w, -, hw⟩ := List.mem_flatMap.1 (List.mem_reverse.1 (Dict.mem_of_get? hlast))
  exact id_of_mem_changes hw

theorem get_ofWrites (s : Store) (ws : List Write) (id : NodeId) :
    get s (ofWrites ws) id = leaves ws id (s.node? id) := by
  rw [get, get?_ofWrites, leaves]
  cases lastChange? ws id <;> rfl

end Batch

namespace Store

/-! ## The nodes by id -/

/-- The nodes by id, in the order in which their ids first came. -/
def nodeMap (s : Store) : List (NodeId × Node) := s.entries.map (Prod.map id Stored.node)

theorem keys_nodeMap (s : Store) : Dict.keys s.nodeMap = s.ids := by
  rw [nodeMap, Dict.keys_map, List.map_id, ids]

theorem get?_nodeMap (s : Store) (id : NodeId) : Dict.get? s.nodeMap id = s.node? id :=
  Dict.get?_map Function.injective_id _ _ _

theorem nodeMap_put (s : Store) (n : Node) : (s.put n).nodeMap = Dict.insert s.nodeMap n.id n := by
  have hentry : ∀ c : Stored, (Dict.insert s.entries n.id c).map (Prod.map id Stored.node)
      = Dict.insert s.nodeMap n.id c.node := fun c =>
    (Dict.insert_map Function.injective_id Stored.node s.entries n.id c).symm
  unfold put
  split
  · exact hentry ⟨n, s.nextSeq⟩
  · next old _ => exact hentry ⟨n, old.seq⟩

theorem nodeMap_remove (s : Store) (id : NodeId) :
    (s.remove id).nodeMap = Dict.erase s.nodeMap id := by
  have hentries : (s.remove id).entries = Dict.erase s.entries id := by
    unfold remove
    split
    · next habsent =>
      refine (List.filter_eq_self.2 fun e he => ?_).symm
      have hid : e.1 ≠ id := fun hid =>
        Dict.get?_eq_none_iff.1 habsent (hid ▸ Dict.mem_keys_of_mem (v := e.2) he)
      simpa using hid
    · rfl
  rw [nodeMap, hentries]
  exact (Dict.erase_map Function.injective_id Stored.node s.entries id).symm

/-- A commit changes the nodes id by id. -/
theorem nodeMap_commit (s : Store) {b : Batch} (hb : ∀ id n, (id, some n) ∈ b → n.id = id) :
    (s.commit b).nodeMap = Dict.changeAll s.nodeMap b := by
  unfold commit
  induction b generalizing s with
  | nil => rfl
  | cons e b ih =>
    obtain ⟨id, c⟩ := e
    have hfirst : (s.apply id c).nodeMap = Dict.change s.nodeMap id c := by
      cases c with
      | none => exact nodeMap_remove s id
      | some n =>
        have hid : n.id = id := hb id n List.mem_cons_self
        rw [apply, nodeMap_put, hid, Dict.change]
    rw [List.foldl_cons, ih _ fun id n h => hb id n (List.mem_cons_of_mem _ h), hfirst]
    rfl

/-! ## Whole transactions -/

theorem node?_commit_ofWrites (s : Store) (ws : List Write) (id : NodeId) :
    (s.commit (.ofWrites ws)).node? id = leaves ws id (s.node? id) := by
  rw [← get?_nodeMap, nodeMap_commit s fun _ _ => Batch.id_of_mem_ofWrites,
    Dict.get?_changeAll _ (Batch.nodup_keys_ofWrites ws), Batch.get?_ofWrites, get?_nodeMap, leaves]

theorem nodeMap_commit_ofWrites {s : Store} (hs : s.ids.Nodup) (ws : List Write) :
    (s.commit (.ofWrites ws)).nodeMap
      = (s.nodeMap.filterMap fun e => (leaves ws e.1 (some e.2)).map (e.1, ·)) ++
        (stagedIds ws).filterMap fun id =>
          if id ∈ s.ids then none else (leaves ws id none).map (id, ·) := by
  rw [nodeMap_commit s fun _ _ => Batch.id_of_mem_ofWrites,
    Dict.changeAll_eq (s.keys_nodeMap.symm ▸ hs) (Batch.nodup_keys_ofWrites ws),
    Batch.keys_ofWrites]
  congr 1
  · refine List.filterMap_congr fun e _ => ?_
    rw [Dict.kept, Batch.get?_ofWrites, leaves]
  · refine List.filterMap_congr fun id _ => ?_
    rw [Dict.added, Batch.get?_ofWrites, keys_nodeMap, leaves]

/-- The store behind a call: the new one, or the old one if the call has failed. -/
def after {ε : Type} (s : Store) : Except ε Store → Store
  | .ok t => t
  | .error _ => s

/-- **Transactions are atomic and read their own writes.** Let any writes be
made one after another. At each point of the sequence a read gives what the last
write to the id has left there, or else the stored node, and a commit at that
point would store just that. If the work succeeds, the nodes are the old ones,
each as the last write to it has left it and in the old order, and behind them
the new ones in the order in which their ids were first written to. If it fails,
the store is the one before the call. -/
theorem transact_writes {ε : Type} {s : Store} (hs : s.ids.Nodup) (ws : List Write) :
    (∀ done, done <+: ws → ∀ id,
      Batch.get s (.ofWrites done) id = (lastChange? done id).getD (s.node? id) ∧
      (s.commit (.ofWrites done)).node? id = Batch.get s (.ofWrites done) id) ∧
    (∃ t, s.transact (script ws (.ok () : Except ε Unit)) = .ok t ∧
      t.nodeMap = (s.nodeMap.filterMap fun e =>
          ((lastChange? ws e.1).getD (some e.2)).map (e.1, ·)) ++
        (stagedIds ws).filterMap fun id =>
          if id ∈ s.ids then none else ((lastChange? ws id).getD none).map (id, ·)) ∧
    ∀ e : ε, s.transact (script ws (.error e)) = .error e ∧
      s.after (s.transact (script ws (.error e))) = s := by
  refine ⟨fun done _ id => ⟨Batch.get_ofWrites s done id, ?_⟩,
    ⟨s.commit (.ofWrites ws), rfl, nodeMap_commit_ofWrites hs ws⟩, fun e => ⟨rfl, rfl⟩⟩
  rw [node?_commit_ofWrites, Batch.get_ofWrites]

/-- A token is deleted and set anew below another parent, a new one is set twice, a group is
deleted and another replaced, and an id that nothing has is deleted. -/
def edits : List Write :=
  let group (id : String) : Node := ⟨⟨id⟩, none, "a0", .group ⟨id, .none, none⟩⟩
  let token (id parent name : String) : Node :=
    ⟨⟨id⟩, some ⟨parent⟩, "a0", .token ⟨name, .none, none, .aliasTo (.path "x")⟩⟩
  [.set (token "new" "q" "first"), .delete ⟨"x"⟩, .delete ⟨"absent"⟩, .extend [group "r", group "q"],
    .set (token "x" "r" "again"), .delete ⟨"new"⟩, .delete ⟨"p"⟩, .set (token "new" "r" "second")]

/-- What is set anew stands where it stood, and what is new where it was first set. -/
theorem transact_edits :
    afterMove.ids.Nodup ∧ afterMove.ids.map NodeId.text = ["p", "q", "x", "y"] ∧
    Batch.get afterMove (.ofWrites (edits.take 2)) ⟨"x"⟩ = none ∧
    ∃ t, afterMove.transact (script edits (.ok () : Except String Unit)) = .ok t ∧
      t.nodeMap.map (fun e => (e.1.text, e.2.name)) =
        [("q", "q"), ("x", "again"), ("y", "y"), ("new", "second"), ("r", "r")] := by
  have hs : afterMove.ids.Nodup := by decide
  obtain ⟨hreads, ⟨t, ht, hnodes⟩, -⟩ := transact_writes (ε := String) hs edits
  refine ⟨hs, by decide, ?_, t, ht, ?_⟩
  · rw [(hreads _ (List.take_prefix 2 edits) _).1]
    decide
  · rw [hnodes]
    decide

end Store

end DesignTokens
