import Mathlib.Data.List.Induction
import BadgeRules.Proofs.Numbering

/-!
# Moving new nodes to saved places

A saved layout lists the places of old nodes, first those that new nodes are made for, in their order.
So the entry at a new node's own index has its place. But ids come first, and new nodes are numbered
anew: an old id may go to the node made for another one. `Aligned` says that this does not happen. Then
every new node gets its place (`restore_aligned`). Otherwise one of them stands where another node was
(`restore_stale`), or gets no saved place at all (`restore_repeated`).
-/

namespace BadgeRules

variable {P : Type}

/-- The last occurrence of `id` among `ids` is at `i`. -/
structure LastAt (ids : List String) (id : String) (i : Nat) : Prop where
  here : ids[i]? = some id
  after : ∀ j, i < j → ids[j]? ≠ some id

namespace LastAt

variable {ids ids' : List String} {id : String} {i j : Nat}

theorem unique (h : LastAt ids id i) (h' : LastAt ids id j) : i = j := by
  rcases Nat.lt_trichotomy i j with hij | rfl | hij
  · exact absurd h'.here (h.after j hij)
  · rfl
  · exact absurd h.here (h'.after i hij)

theorem lt_length (h : LastAt ids id i) : i < ids.length := (List.getElem?_eq_some_iff.1 h.here).1

theorem append_right (h : LastAt ids id i) (hid : id ∉ ids') : LastAt (ids ++ ids') id i where
  here := by rw [List.getElem?_append_left h.lt_length, h.here]
  after := by
    intro j hij hj
    rcases Nat.lt_or_ge j ids.length with hlt | hge
    · rw [List.getElem?_append_left hlt] at hj
      exact h.after j hij hj
    · rw [List.getElem?_append_right hge] at hj
      exact hid (List.mem_of_getElem? hj)

theorem snoc (ids : List String) (id : String) : LastAt (ids ++ [id]) id ids.length where
  here := by simp
  after := by
    intro j hj h
    rw [List.getElem?_eq_none (by rw [List.length_append, List.length_singleton]; omega)] at h
    cases h

theorem of_mem (h : id ∈ ids) : ∃ i, LastAt ids id i := by
  induction ids using List.reverseRecOn with
  | nil => exact (List.not_mem_nil h).elim
  | append_singleton ids id' ih =>
    by_cases hid : id' = id
    · subst hid; exact ⟨_, snoc ids id'⟩
    rcases List.mem_append.1 h with h | h
    · obtain ⟨i, hi⟩ := ih h
      exact ⟨i, hi.append_right fun h => hid (List.mem_singleton.1 h).symm⟩
    · exact absurd (List.mem_singleton.1 h).symm hid

end LastAt

namespace Rule

/-! ### The entry with an id -/

section Entries

variable {saved : List (Placement P)} {id : String} {i j : Nat}

theorem entryWithId?_snoc (saved : List (Placement P)) (p : Placement P) (id : String) :
    entryWithId? (saved ++ [p]) id = if p.id = id then some saved.length else entryWithId? saved id := by
  rw [entryWithId?, List.zipIdx_append, List.filter_append, List.zipIdx_singleton]
  by_cases h : p.id = id
  · rw [if_pos h, List.filter_cons_of_pos (by simpa using h), List.filter_nil, List.getLast?_concat]
    simp
  · rw [if_neg h, List.filter_cons_of_neg (by simpa using h), List.filter_nil, List.append_nil]
    rfl

theorem entryWithId?_spec (saved : List (Placement P)) (id : String) :
    (∃ i, entryWithId? saved id = some i ∧ LastAt (saved.map (·.id)) id i) ∨
      (entryWithId? saved id = none ∧ id ∉ saved.map (·.id)) := by
  induction saved using List.reverseRecOn with
  | nil => exact .inr ⟨rfl, List.not_mem_nil⟩
  | append_singleton saved p ih =>
    rw [entryWithId?_snoc, List.map_append, List.map_singleton]
    by_cases hp : p.id = id
    · subst hp
      rw [if_pos rfl]
      exact .inl ⟨_, rfl, by simpa using LastAt.snoc (saved.map (·.id)) p.id⟩
    have hid : id ∉ [p.id] := fun h => hp (List.mem_singleton.1 h).symm
    rw [if_neg hp]
    rcases ih with ⟨i, hi, hlast⟩ | ⟨hnone, hmem⟩
    · exact .inl ⟨i, hi, hlast.append_right hid⟩
    · exact .inr ⟨hnone, fun h => (List.mem_append.1 h).elim hmem hid⟩

theorem entryWithId?_eq_some_iff : entryWithId? saved id = some i ↔ LastAt (saved.map (·.id)) id i := by
  rcases entryWithId?_spec saved id with ⟨j, hj, hlast⟩ | ⟨hnone, hmem⟩
  · rw [hj, Option.some_inj]
    exact ⟨fun h => h ▸ hlast, fun h => hlast.unique h⟩
  · rw [hnone]
    constructor
    · intro h; cases h
    · intro h; exact absurd (List.mem_of_getElem? h.here) hmem

theorem entryWithId?_eq_none (h : id ∉ saved.map (·.id)) : entryWithId? saved id = none := by
  rcases entryWithId?_spec saved id with ⟨i, -, hlast⟩ | ⟨hnone, -⟩
  · exact absurd (List.mem_of_getElem? hlast.here) h
  · exact hnone

end Entries

/-! ### One node -/

section Restore

variable {saved : List (Placement P)} {ns : List (Node P)} {n m : Node P} {p : Placement P} {i j : Nat}

/-- A node whose id an entry has stands where that entry says. -/
theorem restore_by_id (hn : ns[i]? = some n) (he : entryWithId? saved n.id = some j)
    (hp : saved[j]? = some p) : ((restore saved ns).map Node.position)[i]? = some p.position := by
  simp [restore, List.getElem?_mapIdx, hn, he, hp]

/-- A node whose id no entry has stands where the entry at its index says, unless that is the entry of
another node. -/
theorem restore_by_index (hn : ns[i]? = some n) (he : entryWithId? saved n.id = none)
    (hfree : ∀ m ∈ ns, entryWithId? saved m.id ≠ some i) (hp : saved[i]? = some p) :
    ((restore saved ns).map Node.position)[i]? = some p.position := by
  have hclaim : (ns.filterMap fun m => entryWithId? saved m.id).contains i = false := by simpa using hfree
  simp only [restore, List.getElem?_map, List.getElem?_mapIdx, hn, he, hp, hclaim, Option.map_some,
    Option.none_or, Option.bind_some, Bool.false_eq_true, if_false]

theorem restore_claimed (hn : ns[i]? = some n) (he : entryWithId? saved n.id = none) (hm : m ∈ ns)
    (hmi : entryWithId? saved m.id = some i) :
    ((restore saved ns).map Node.position)[i]? = some n.position := by
  have hclaim : (ns.filterMap fun m => entryWithId? saved m.id).contains i = true := by
    simpa using ⟨m, hm, hmi⟩
  simp only [restore, List.getElem?_map, List.getElem?_mapIdx, hn, he, hclaim, Option.map_some,
    Option.none_or, Option.bind_none, if_true]

end Restore

end Rule

/-! ### Old ids and new numbers -/

/-- An id among `ids` that a new node gets is that of the occurrence the new node is made for, and of
none after it. -/
def Aligned (ids occurrences : List String) : Prop :=
  ∀ i < occurrences.length, nodeId i ∈ ids → LastAt occurrences (nodeId i) i

/-- Otherwise an old id is given to a new node for another occurrence, or the last occurrence of a node
that keeps its id is left with a new one. -/
theorem stale_or_repeated {ids occ : List String} (h : ¬ Aligned ids occ) :
    (∃ i < occ.length, nodeId i ∈ ids ∧ occ[i]? ≠ some (nodeId i)) ∨
      ∃ i j, i < occ.length ∧ LastAt occ (nodeId i) j ∧ nodeId j ∉ ids := by
  by_cases hstale : ∃ i < occ.length, nodeId i ∈ ids ∧ occ[i]? ≠ some (nodeId i)
  · exact .inl hstale
  have hkeep : ∀ i < occ.length, nodeId i ∈ ids → occ[i]? = some (nodeId i) := fun i hi hid =>
    Decidable.byContradiction fun hne => hstale ⟨i, hi, hid, hne⟩
  right
  simp only [Aligned, not_forall] at h
  obtain ⟨i, hi, hid, hlast⟩ := h
  obtain ⟨j, hj⟩ := LastAt.of_mem (List.mem_of_getElem? (hkeep i hi hid))
  refine ⟨i, j, hi, hj, fun hjd => hlast ?_⟩
  obtain rfl := nodeId_injective (Option.some_inj.1 (hj.here.symm.trans (hkeep j hj.lt_length hjd)))
  exact hj

namespace Rule

section Snapshot

/-- The saved places of nodes. -/
def snapshot (ns : List (Node P)) : List (Placement P) := ns.map fun n => ⟨n.id, n.position⟩

theorem ids_snapshot (ns : List (Node P)) : (snapshot ns).map (·.id) = ns.map (·.id) := by
  rw [snapshot, List.map_map]; rfl

/-! New nodes `ns` are made for the old nodes `V`, and the old nodes `S` have other ids. -/

variable {V S ns : List (Node P)} {i j : Nat}

theorem snapshot_getElem? {n : Node P} (h : V[i]? = some n) :
    (snapshot (V ++ S))[i]? = some ⟨n.id, n.position⟩ := by
  have hi := (List.getElem?_eq_some_iff.1 h).1
  rw [snapshot, List.getElem?_map, List.getElem?_append_left hi, h]; rfl

variable (hns : ns.map (·.id) = (List.range V.length).map nodeId)
include hns

theorem exists_numbered (hi : i < V.length) : ∃ n, ns[i]? = some n ∧ n.id = nodeId i := by
  have := congrArg (·[i]?) hns
  simpa [hi] using this

/-- New nodes for the occurrences `V` get the places of these back. -/
theorem restore_aligned (hVS : ∀ id ∈ V.map (·.id), id ∉ S.map (·.id))
    (ha : Aligned ((V ++ S).map (·.id)) (V.map (·.id))) :
    (restore (snapshot (V ++ S)) ns).map Node.position = V.map Node.position := by
  have hentry : ∀ i < V.length, nodeId i ∈ (V ++ S).map (·.id) →
      entryWithId? (snapshot (V ++ S)) (nodeId i) = some i := by
    intro i hi hid
    have hlast := ha i (by simpa using hi) hid
    rw [entryWithId?_eq_some_iff, ids_snapshot, List.map_append]
    exact hlast.append_right (hVS _ (List.mem_of_getElem? hlast.here))
  refine List.ext_getElem? fun i => ?_
  by_cases hi : i < V.length
  · obtain ⟨n, hn, hnid⟩ := exists_numbered hns hi
    have hv : V[i]? = some V[i] := List.getElem?_eq_getElem hi
    rw [List.getElem?_map (l := V), hv, Option.map_some]
    by_cases hid : nodeId i ∈ (V ++ S).map (·.id)
    · exact restore_by_id hn (hnid ▸ hentry i hi hid) (snapshot_getElem? hv)
    have hnone : entryWithId? (snapshot (V ++ S)) n.id = none :=
      entryWithId?_eq_none (by rw [ids_snapshot, hnid]; exact hid)
    refine restore_by_index hn hnone (fun m hm hmi => ?_) (snapshot_getElem? hv)
    -- the entry at `i` is that of a new node, so it is the entry at that node's own index
    have hmem : m.id ∈ ns.map (·.id) := List.mem_map_of_mem hm
    rw [hns] at hmem
    obtain ⟨k, hk, hkm⟩ := List.mem_map.1 hmem
    rw [← hkm] at hmi
    have hkid := List.mem_of_getElem? (entryWithId?_eq_some_iff.1 hmi).here
    rw [ids_snapshot] at hkid
    rw [hentry k (List.mem_range.1 hk) hkid, Option.some_inj] at hmi
    exact hid (hmi ▸ hkid)
  · have hlen : ns.length = V.length := by simpa using congrArg List.length hns
    rw [List.getElem?_eq_none (by simp [restore]; omega), List.getElem?_eq_none (by simp; omega)]

/-- A new node that got an old id stands where an old node of that id was. -/
theorem restore_stale (hi : i < V.length) (hid : nodeId i ∈ (V ++ S).map (·.id)) : ∃ m ∈ V ++ S, m.id = nodeId i ∧
      ((restore (snapshot (V ++ S)) ns).map Node.position)[i]? = some m.position := by
  obtain ⟨n, hn, hnid⟩ := exists_numbered hns hi
  obtain ⟨j, hj⟩ := LastAt.of_mem hid
  have hhere := hj.here
  rw [List.getElem?_map] at hhere
  obtain ⟨m, hm, hmid⟩ := Option.map_eq_some_iff.1 hhere
  refine ⟨m, List.mem_of_getElem? hm, hmid, ?_⟩
  have hentry : entryWithId? (snapshot (V ++ S)) n.id = some j := by
    rw [hnid, entryWithId?_eq_some_iff, ids_snapshot]; exact hj
  exact restore_by_id (p := ⟨m.id, m.position⟩) hn hentry (by rw [snapshot, List.getElem?_map, hm]; rfl)

/-- A new node without an old id stays where it is, if its entry is that of a new node with an old id. -/
theorem restore_repeated (hVS : ∀ id ∈ V.map (·.id), id ∉ S.map (·.id)) (hi : i < V.length)
    (hj : LastAt (V.map (·.id)) (nodeId i) j) (hjd : nodeId j ∉ (V ++ S).map (·.id)) :
    ((restore (snapshot (V ++ S)) ns).map Node.position)[j]? = (ns.map Node.position)[j]? := by
  obtain ⟨m, hm, hmid⟩ := exists_numbered hns hi
  obtain ⟨n, hn, hnid⟩ := exists_numbered hns (i := j) (by simpa using hj.lt_length)
  have hentry : entryWithId? (snapshot (V ++ S)) m.id = some j := by
    rw [hmid, entryWithId?_eq_some_iff, ids_snapshot, List.map_append]
    exact hj.append_right (hVS _ (List.mem_of_getElem? hj.here))
  rw [List.getElem?_map (l := ns), hn]
  exact restore_claimed hn (entryWithId?_eq_none (by rw [ids_snapshot, hnid]; exact hjd))
    (List.mem_of_getElem? hm) hentry

end Snapshot

end Rule

end BadgeRules
