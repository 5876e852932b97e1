import BadgeRules.Proofs.FixedPoint

/-!
# The entries of a saved layout are shared out

New nodes take entries of the saved layout: the last one with their id, otherwise the one at their own
index, if no new node has that by its id (`Rule.entryFor?`). As new ids are distinct, no entry goes to
two nodes (`Rule.SharedOut`, `Rule.sharedOut_restore`). Where every new id has one entry, indices do not
count, and so the order of the entries does not either (`Rule.restore_perm`).
-/

namespace BadgeRules

variable {P : Type}

namespace Rule

/-- The entry that the `i`-th of new nodes takes, if they have these ids. -/
def entryFor? (saved : List (Placement P)) (ids : List String) (i : Nat) : Option Nat :=
  ids[i]?.bind fun id => (entryWithId? saved id).or
    (if i < saved.length ∧ ∀ x ∈ ids, entryWithId? saved x ≠ some i then some i else none)

/-- The new nodes `ns` have moved, and are the nodes `ms` now: each of them took the entry that `entry`
gives for its index, or stayed where it was. -/
structure SharedOut (saved : List (Placement P)) (ns ms : List (Node P)) (entry : Nat → Option Nat) :
    Prop where
  moved : ∀ i j m, ms[i]? = some m → entry i = some j → ∃ p, saved[j]? = some p ∧ m.position = p.position
  stayed : ∀ i n m, ns[i]? = some n → ms[i]? = some m → entry i = none → m.position = n.position
  /-- No entry goes to two nodes. -/
  once : ∀ i i' j, entry i = some j → entry i' = some j → i = i'
  byId : ∀ i n, ns[i]? = some n → n.id ∈ saved.map (·.id) →
    ∃ j, entry i = some j ∧ (saved.map (·.id))[j]? = some n.id
  byIndex : ∀ i n j, ns[i]? = some n → n.id ∉ saved.map (·.id) → entry i = some j → j = i
  /-- A node goes without the entry at its index only if another node took that by its id. -/
  refused : ∀ i n, ns[i]? = some n → n.id ∉ saved.map (·.id) → i < saved.length → entry i = none →
    ∃ i' n', i' ≠ i ∧ ns[i']? = some n' ∧ entry i' = some i ∧ (saved.map (·.id))[i]? = some n'.id

section Entries

variable {saved : List (Placement P)} {ns : List (Node P)} {n : Node P} {i j : Nat}

theorem entryFor?_of_id (hn : ns[i]? = some n) (he : entryWithId? saved n.id = some j) :
    entryFor? saved (ns.map (·.id)) i = some j := by
  rw [entryFor?, List.getElem?_map, hn, Option.map_some, Option.bind_some, he, Option.some_or]

theorem entryFor?_of_new (hn : ns[i]? = some n) (he : entryWithId? saved n.id = none) :
    entryFor? saved (ns.map (·.id)) i =
      if i < saved.length ∧ ∀ m ∈ ns, entryWithId? saved m.id ≠ some i then some i else none := by
  rw [entryFor?, List.getElem?_map, hn, Option.map_some, Option.bind_some, he, Option.none_or]
  simp only [List.forall_mem_map]

/-- A node goes without the entry at its own index if that is taken by its id. -/
theorem exists_taken (hn : ns[i]? = some n) (he : entryWithId? saved n.id = none) (hi : i < saved.length)
    (h : entryFor? saved (ns.map (·.id)) i = none) : ∃ m ∈ ns, entryWithId? saved m.id = some i := by
  rw [entryFor?_of_new hn he, ite_eq_right_iff] at h
  simpa [hi] using h

/-- An entry is taken by its id, or at its own index. -/
theorem entryFor?_eq_some (h : entryFor? saved (ns.map (·.id)) i = some j) : ∃ n, ns[i]? = some n ∧
    (entryWithId? saved n.id = some j ∨
      (entryWithId? saved n.id = none ∧ j = i ∧ i < saved.length ∧
        ∀ m ∈ ns, entryWithId? saved m.id ≠ some i)) := by
  obtain ⟨id, hid, -⟩ := Option.bind_eq_some_iff.1 h
  rw [List.getElem?_map] at hid
  obtain ⟨n, hn, -⟩ := Option.map_eq_some_iff.1 hid
  refine ⟨n, hn, ?_⟩
  cases he : entryWithId? saved n.id with
  | some k => exact .inl ((entryFor?_of_id hn he).symm.trans h)
  | none =>
    rw [entryFor?_of_new hn he] at h
    split at h
    · next hfree => exact .inr ⟨rfl, (Option.some_inj.1 h).symm, hfree⟩
    · cases h

theorem lt_of_entryWithId? {id : String} (h : entryWithId? saved id = some j) : j < saved.length := by
  simpa using (entryWithId?_eq_some_iff.1 h).lt_length

theorem position_restore_of_entry (h : entryFor? saved (ns.map (·.id)) i = some j) : ∃ p, saved[j]? = some p ∧
    ((restore saved ns).map Node.position)[i]? = some p.position := by
  obtain ⟨n, hn, he | ⟨he, rfl, hlt, hfree⟩⟩ := entryFor?_eq_some h
  · have hp := List.getElem?_eq_getElem (lt_of_entryWithId? he)
    exact ⟨_, hp, restore_by_id hn he hp⟩
  · have hp := List.getElem?_eq_getElem hlt
    exact ⟨_, hp, restore_by_index hn he hfree hp⟩

/-- A node without an id among the entries stays when there are fewer entries than nodes before it. -/
theorem restore_beyond (hn : ns[i]? = some n) (he : entryWithId? saved n.id = none)
    (hi : saved.length ≤ i) : ((restore saved ns).map Node.position)[i]? = some n.position := by
  have hentry : (if (ns.filterMap fun m => entryWithId? saved m.id).contains i then none
      else some i).bind (saved[·]?) = none := by
    split
    · rfl
    · exact List.getElem?_eq_none hi
  simp only [restore, List.getElem?_map, List.getElem?_mapIdx, hn, he, Option.map_some, Option.none_or,
    hentry]

theorem position_restore_of_none (h : entryFor? saved (ns.map (·.id)) i = none) :
    ((restore saved ns).map Node.position)[i]? = (ns.map Node.position)[i]? := by
  cases hn : ns[i]? with
  | none =>
    have hi := List.getElem?_eq_none_iff.1 hn
    rw [List.getElem?_eq_none (by simpa [restore] using hi), List.getElem?_eq_none (by simpa using hi)]
  | some n =>
    rw [List.getElem?_map (l := ns), hn, Option.map_some]
    cases he : entryWithId? saved n.id with
    | some j => rw [entryFor?_of_id hn he] at h; cases h
    | none =>
      by_cases hi : i < saved.length
      · obtain ⟨m, hm, hmi⟩ := exists_taken hn he hi h
        exact restore_claimed hn he hm hmi
      · exact restore_beyond hn he (Nat.le_of_not_lt hi)

/-- Entries go to nodes with ids of their own once each. -/
theorem entryFor?_injective (hns : (ns.map (·.id)).Nodup) {i' : Nat}
    (h : entryFor? saved (ns.map (·.id)) i = some j) (h' : entryFor? saved (ns.map (·.id)) i' = some j) :
    i = i' := by
  obtain ⟨n, hn, hcase⟩ := entryFor?_eq_some h
  obtain ⟨n', hn', hcase'⟩ := entryFor?_eq_some h'
  have hmem := List.mem_of_getElem? hn
  have hmem' := List.mem_of_getElem? hn'
  rcases hcase with he | ⟨-, rfl, -, hfree⟩
  · rcases hcase' with he' | ⟨-, rfl, -, hfree'⟩
    · -- the entry has one id, and only one new node has it
      have hhere := (entryWithId?_eq_some_iff.1 he).here
      have hhere' := (entryWithId?_eq_some_iff.1 he').here
      have hid : (ns.map (·.id))[i]? = (ns.map (·.id))[i']? := by
        rw [List.getElem?_map, List.getElem?_map, hn, hn', Option.map_some, Option.map_some, ← hhere, ← hhere']
      have hi : i < (ns.map (·.id)).length := by simpa using (List.getElem?_eq_some_iff.1 hn).1
      exact (List.getElem?_inj hi hns).1 hid
    · exact absurd he (hfree' n hmem)
  · rcases hcase' with he' | ⟨-, rfl, -, -⟩
    · exact absurd he' (hfree n' hmem')
    · rfl

/-- Restoring a layout shares its entries out. -/
theorem sharedOut_restore (hns : (ns.map (·.id)).Nodup) :
    SharedOut saved ns (restore saved ns) (entryFor? saved (ns.map (·.id))) := by
  refine ⟨fun i j m hm h => ?moved, fun i n m hn hm h => ?stayed, fun i i' j => entryFor?_injective hns,
    fun i n hn hid => ?byId, fun i n j hn hid h => ?byIndex, fun i n hn hid hi h => ?refused⟩
  case moved =>
    obtain ⟨p, hp, hpos⟩ := position_restore_of_entry h
    rw [List.getElem?_map, hm] at hpos
    exact ⟨p, hp, Option.some_inj.1 hpos⟩
  case stayed =>
    have hpos := position_restore_of_none h
    rw [List.getElem?_map, List.getElem?_map, hm, hn] at hpos
    exact Option.some_inj.1 hpos
  case byId =>
    obtain ⟨j, hj⟩ := LastAt.of_mem hid
    exact ⟨j, entryFor?_of_id hn (entryWithId?_eq_some_iff.2 hj), hj.here⟩
  case byIndex =>
    obtain ⟨n', hn', he | ⟨-, rfl, -⟩⟩ := entryFor?_eq_some h
    · obtain rfl := Option.some_inj.1 (hn'.symm.trans hn)
      rw [entryWithId?_eq_none hid] at he
      cases he
    · rfl
  case refused =>
    have he := entryWithId?_eq_none hid
    obtain ⟨m, hm, hmi⟩ := exists_taken hn he hi h
    obtain ⟨i', hi'⟩ := List.getElem?_of_mem hm
    refine ⟨i', m, ?_, hi', entryFor?_of_id hi' hmi, (entryWithId?_eq_some_iff.1 hmi).here⟩
    rintro rfl
    obtain rfl := Option.some_inj.1 (hi'.symm.trans hn)
    rw [he] at hmi
    cases hmi

end Entries

/-- Nodes that stood elsewhere end up in the same places if the ones without an entry do. -/
theorem restore_eq_iff {saved : List (Placement P)} {ns ms : List (Node P)}
    (h : ns.map Node.label = ms.map Node.label) : restore saved ns = restore saved ms ↔
      ∀ i, entryFor? saved (ns.map (·.id)) i = none →
        (ns.map Node.position)[i]? = (ms.map Node.position)[i]? := by
  have hids : ns.map (·.id) = ms.map (·.id) := by
    simpa [Node.label, Function.comp_def] using congrArg (List.map Prod.fst) h
  constructor
  · intro heq i hnone
    rw [← position_restore_of_none hnone, heq, position_restore_of_none (hids ▸ hnone)]
  · intro hplaces
    refine nodes_eq_of_labels ((label_restore _ _).trans (h.trans (label_restore _ _).symm))
      (List.ext_getElem? fun i => ?_)
    -- which entry a node takes depends on the ids only, so both lists take the same
    cases hentry : entryFor? saved (ns.map (·.id)) i with
    | none => rw [position_restore_of_none hentry, hplaces i hentry, position_restore_of_none (hids ▸ hentry)]
    | some j =>
      obtain ⟨p, hp, hpos⟩ := position_restore_of_entry hentry
      obtain ⟨q, hq, hpos'⟩ := position_restore_of_entry (hids ▸ hentry)
      rw [hpos, hpos', Option.some_inj.1 (hp.symm.trans hq)]

/-! ### Rules with and without a layout -/

theorem restore_nil (ns : List (Node P)) : restore [] ns = ns := by
  refine nodes_eq_of_labels (label_restore _ _) (List.ext_getElem? fun i => ?_)
  refine position_restore_of_none ?_
  cases hentry : entryFor? ([] : List (Placement P)) (ns.map (·.id)) i with
  | none => rfl
  | some j =>
    obtain ⟨p, hp, -⟩ := position_restore_of_entry hentry
    exact absurd (List.mem_of_getElem? hp) List.not_mem_nil

theorem nodes_expandWith (r : Rule P) (place : Cell → P) :
    (r.expandWith place).nodes = restore (r.layout.getD []) (r.layOut.map place).nodes := by
  rw [expandWith]
  cases r.layout with
  | none => exact (restore_nil _).symm
  | some saved => rfl

theorem edges_expandWith (r : Rule P) (place : Cell → P) : (r.expandWith place).edges = r.layOut.edges :=
  (r.shows_expandWith place).edges

/-- Nodes that have no saved place make the difference between two ways to place cells. -/
theorem expandWith_eq_iff (r : Rule P) (place place' : Cell → P) :
    r.expandWith place = r.expandWith place' ↔ ∀ i n, r.layOut.nodes[i]? = some n →
      entryFor? (r.layout.getD []) r.layOut.ids i = none → place n.position = place' n.position := by
  have hlabels : (r.layOut.map place).nodes.map Node.label = (r.layOut.map place').nodes.map Node.label :=
    (r.shows_layOut place).labels.trans (r.shows_layOut place').labels.symm
  have hids : (r.layOut.map place).nodes.map (·.id) = r.layOut.ids := (r.shows_layOut place).ids_eq
  have hnodes : r.expandWith place = r.expandWith place' ↔
      restore (r.layout.getD []) (r.layOut.map place).nodes =
        restore (r.layout.getD []) (r.layOut.map place').nodes := by
    rw [← nodes_expandWith, ← nodes_expandWith]
    refine ⟨congrArg Canvas.nodes, fun h => ?_⟩
    have hedges := (r.edges_expandWith place).trans (r.edges_expandWith place').symm
    calc r.expandWith place = ⟨(r.expandWith place).nodes, (r.expandWith place).edges⟩ := rfl
      _ = ⟨(r.expandWith place').nodes, (r.expandWith place').edges⟩ := by rw [h, hedges]
  rw [hnodes, restore_eq_iff hlabels, hids]
  refine forall_congr' fun i => ?_
  simp only [Canvas.map, List.map_map, List.getElem?_map]
  cases r.layOut.nodes[i]? with
  | none => simp
  | some n => simp [Node.map]

/-! ### The order of the entries -/

theorem eq_of_count_map {α β : Type} [BEq β] [LawfulBEq β] {f : α → β} {l : List α} {b : β}
    (h : (l.map f).count b = 1) {x y : α} (hx : x ∈ l) (hy : y ∈ l) (hxb : f x = b) (hyb : f y = b) : x = y := by
  rw [List.count, List.countP_map, List.countP_eq_length_filter, List.length_eq_one_iff] at h
  obtain ⟨z, hz⟩ := h
  have hone : ∀ w ∈ l, f w = b → w = z := by
    intro w hw hwb
    have hmem : w ∈ l.filter ((· == b) ∘ f) := List.mem_filter.2 ⟨hw, by simp [hwb]⟩
    rw [hz] at hmem
    exact List.mem_singleton.1 hmem
  rw [hone x hx hxb, hone y hy hyb]

section Order

variable {saved saved' : List (Placement P)} {ns : List (Node P)}

/-- A node whose id a single entry has goes where that entry says. -/
theorem position_restore_of_count {n : Node P} {p : Placement P} {i : Nat}
    (h : (saved.map (·.id)).count n.id = 1) (hn : ns[i]? = some n) (hp : p ∈ saved) (hid : p.id = n.id) :
    ((restore saved ns).map Node.position)[i]? = some p.position := by
  obtain ⟨j, hj⟩ := LastAt.of_mem (hid ▸ List.mem_map_of_mem hp : n.id ∈ saved.map (·.id))
  have hhere := hj.here
  rw [List.getElem?_map] at hhere
  obtain ⟨q, hq, hqid⟩ := Option.map_eq_some_iff.1 hhere
  obtain rfl : q = p := eq_of_count_map h (List.mem_of_getElem? hq) hp hqid hid
  exact restore_by_id hn (entryWithId?_eq_some_iff.2 hj) hq

theorem restore_perm (hp : saved'.Perm saved) (h : ∀ n ∈ ns, (saved.map (·.id)).count n.id = 1) :
    restore saved' ns = restore saved ns := by
  refine nodes_eq_of_labels ((label_restore _ _).trans (label_restore _ _).symm) (List.ext_getElem? fun i => ?_)
  cases hn : ns[i]? with
  | none =>
    have hi := List.getElem?_eq_none_iff.1 hn
    rw [List.getElem?_eq_none (by simpa [restore] using hi), List.getElem?_eq_none (by simpa [restore] using hi)]
  | some n =>
    have hone := h n (List.mem_of_getElem? hn)
    have hmem : n.id ∈ saved.map (·.id) := List.count_pos_iff.1 (by rw [hone]; exact Nat.one_pos)
    obtain ⟨p, hpm, hid⟩ := List.mem_map.1 hmem
    have hone' : (saved'.map (·.id)).count n.id = 1 := by rw [(hp.map _).count_eq, hone]
    rw [position_restore_of_count hone' hn (hp.mem_iff.2 hpm) hid, position_restore_of_count hone hn hpm hid]

end Order

end Rule

/-- `restore` changes nothing but positions. The entries are `SharedOut`: a node takes an entry with its id if there is
one, else the entry at its index unless another node took that by its id, and no two nodes take the same.
Their order does not count if each new id has one entry. -/
theorem layout_shared_out (r : Rule Position) (saved : List (Placement Position)) (g : Grid Float) :
    let unmoved := ({ r with layout := none } : Rule Position).expand g
    let c := ({ r with layout := some saved } : Rule Position).expand g
    c.nodes.map Node.label = unmoved.nodes.map Node.label ∧ c.edges = unmoved.edges ∧
      (∃ entry : Nat → Option Nat, Rule.SharedOut saved unmoved.nodes c.nodes entry) ∧
      ((∀ n ∈ unmoved.nodes, (saved.map (·.id)).count n.id = 1) →
        ∀ saved', saved'.Perm saved → ({ r with layout := some saved' } : Rule Position).expand g = c) := by
  intro unmoved c
  have hshows : r.Shows unmoved := r.shows_layOut g.place
  have hnodes : c.nodes = Rule.restore saved unmoved.nodes := rfl
  refine ⟨?labels, rfl, ⟨Rule.entryFor? saved unmoved.ids, ?shared⟩, fun hone saved' hperm => ?order⟩
  case labels => rw [hnodes, label_restore]
  case shared => exact Rule.sharedOut_restore hshows.nodup_ids
  case order =>
    have hsame : Rule.restore saved' unmoved.nodes = Rule.restore saved unmoved.nodes :=
      Rule.restore_perm hperm hone
    exact congrArg (fun ns => ({ nodes := ns, edges := unmoved.edges } : Canvas Position)) hsame

/-- A badge and its condition, saved in either order. -/
theorem layout_shared_out_reversed :
    let r : Rule Position :=
      { id := "r1", name := "R", slots := [.single (.test ⟨"member", .equal, .single (.bool true)⟩)],
        awards := [⟨"GOLD", none, 1⟩] }
    let saved : List (Placement Position) := [⟨"node_1", ⟨0, 40⟩⟩, ⟨"node_0", ⟨400, 40⟩⟩]
    (∀ n ∈ r.expand.nodes, (saved.map (·.id)).count n.id = 1) ∧ saved.reverse.Perm saved ∧
      ({ r with layout := some saved.reverse } : Rule Position).expand =
        ({ r with layout := some saved } : Rule Position).expand := by
  intro r saved
  have hone : ∀ n ∈ r.expand.nodes, (saved.map (·.id)).count n.id = 1 := by
    have hids : r.expand.nodes.map (·.id) = ["node_0", "node_1"] := by decide
    intro n hn
    have hid : n.id ∈ ["node_0", "node_1"] := hids ▸ List.mem_map_of_mem hn
    revert hid
    generalize n.id = id
    revert id
    decide
  have hperm : saved.reverse.Perm saved := List.reverse_perm saved
  exact ⟨hone, hperm, (layout_shared_out r saved .standard).2.2.2 hone _ hperm⟩

end BadgeRules
