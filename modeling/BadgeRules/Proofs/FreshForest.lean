import BadgeRules.Proofs.DrawingOrder
import BadgeRules.Proofs.Forest

/-!
# Expansions are freshly numbered forests

Every node of an expanded rule but the badges has one edge to leave by, to a node before it, and edges
have the numbers from 0 on, though not in their order: an edge is numbered after the tree at its source
and listed before it (`edgeIds_sproutsOf`). `expand_freshForest` puts this together.
-/

namespace BadgeRules
open Formula.size Formula.sprouts

variable {P Q : Type} {c : Canvas P} {r : Rule Q}

/-! ### Numbers of edges -/

/-- The numbers of the edges of a forest, the edge of a tree's root after those upstream of it. -/
theorem edgeIds_sproutsOf (q col : Nat) (k : Counters) (fs : List Formula) :
    ((sproutsOf q col k fs).map (·.edge.id)).Perm ((List.range' k.edge (sizes fs)).map edgeId) := by
  induction fs using Formula.forest_induction generalizing q col k with
  | nil => exact .nil
  | test t fs ih =>
    rw [sproutsOf_test, sizes_test, Nat.add_comm 1, List.range'_succ]
    exact (ih q col (k.advance 1)).cons _
  | gate op gs fs ihg ih =>
    have hup := ihg k.node (col - 1) k.afterRoot
    have hrest := ih q col (k.advance (1 + sizes gs))
    -- the number of the root's edge stands between those of the trees upstream and of the other trees
    have hsize : 1 + sizes gs + sizes fs = sizes gs + (sizes fs + 1) := by omega
    have hnext : k.edge + sizes gs + 1 = k.edge + (1 + sizes gs) := by omega
    rw [sproutsOf_gate, sizes_gate, hsize, ← List.range'_append_1, List.range'_succ, hnext,
      List.map_append, List.map_cons, List.map_cons, List.map_append]
    exact ((hup.append hrest).cons _).trans List.perm_middle.symm

theorem edgeIds_plant (col row : Nat) (k : Counters) (gs : List (Award × List Formula)) :
    (((plant col row k gs).flatMap Planted.sprouts).map (·.edge.id)).Perm
      ((List.range' k.edge (gs.map fun g => sizes g.2).sum).map edgeId) := by
  induction gs generalizing row k with
  | nil => exact .nil
  | cons g gs ih =>
    let trees : Counters := { k with node := k.node + 1 }
    have htrees := edgeIds_sproutsOf k.node (col - 1) trees g.2
    have hrest := ih (row + 1) (trees.advance (sizes g.2))
    rw [plant, List.flatMap_cons, List.map_append, List.map_cons, List.sum_cons, ← List.range'_append_1,
      List.map_append]
    exact htrees.append hrest

theorem Rule.edgeIds_layOut (r : Rule Q) :
    (r.layOut.edges.map Edge.id).Perm ((List.range r.layOut.edges.length).map edgeId) := by
  have hperm := edgeIds_plant r.depth 0 ⟨0, 0, 0⟩ r.guarded
  have hids : r.layOut.edges.map Edge.id = (r.planted.flatMap Planted.sprouts).map (·.edge.id) := by
    rw [edges_layOut, List.map_map]; rfl
  have hlen := hperm.length_eq
  rw [List.length_map, List.length_map, List.length_range'] at hlen
  rw [hids, edges_layOut, List.length_map, sprouts, planted, hlen, List.range_eq_range']
  exact hperm

/-! ### How many nodes there are -/

theorem sizes_eq_sum (fs : List Formula) : sizes fs = (fs.map Formula.size).sum := by
  induction fs with
  | nil => rfl
  | cons f fs ih => rw [sizes, ih, List.map_cons, List.sum_cons]

theorem plantedSize_eq (gs : List (Award × List Formula)) :
    plantedSize gs = gs.length + ((gs.flatMap Prod.snd).map Formula.size).sum := by
  induction gs with
  | nil => rfl
  | cons g gs ih =>
    rw [plantedSize_cons, ih, List.flatMap_cons, List.map_append, List.sum_append, sizes_eq_sum,
      List.length_cons]
    omega

namespace Rule

theorem flatMap_rootsAt (r : Rule Q) (n : Nat) :
    (List.range n).flatMap r.rootsAt = (r.slots.take n).flatMap Slot.roots := by
  induction n with
  | zero => rfl
  | succ n ih =>
    rw [List.range_succ, List.flatMap_append, ih, List.take_add_one, List.flatMap_append]
    -- an award without a slot has no roots
    cases hslot : r.slots[n]? <;> simp [rootsAt, hslot]

/-- The roots that guard an award are those of the slots that have one. -/
theorem flatMap_guarded (r : Rule Q) :
    r.guarded.flatMap Prod.snd = (r.slots.take r.awards.length).flatMap Slot.roots := by
  rw [List.flatMap, snd_guarded, ← List.flatMap, flatMap_rootsAt]

end Rule

/-! ### Nodes and the edges that leave them -/

theorem Canvas.outgoing_eq_singleton (h : (c.edges.map Edge.source).Nodup) {e : Edge} (he : e ∈ c.edges) :
    c.outgoing e.source = [e] := by
  have hown : c.edges.filter (·.source == e.source) = c.edges.filter (· == e) := by
    apply List.filter_congr
    intro e' he'
    rw [Bool.eq_iff_iff, beq_iff_eq, beq_iff_eq]
    exact ⟨fun hs => List.inj_on_of_nodup_map h he' he hs, congrArg Edge.source⟩
  rw [outgoing, hown, List.filter_beq, List.count_eq_one_of_mem h.of_map he]
  rfl

/-- Nodes are numbered in their order and edges in some order. Every node but a badge has one edge, to
a node before it, and every edge would be accepted if it were the last one to be drawn. -/
structure Canvas.FreshForest (c : Canvas P) : Prop where
  nodeIds : c.ids = (List.range c.nodes.length).map nodeId
  edgeIds : (c.edges.map Edge.id).Perm ((List.range c.edges.length).map edgeId)
  distinct : (c.edges.map Edge.id).Nodup
  edges : c.edges.length = (c.nodes.filter (·.kind? != some .badge)).length
  consumer : ∀ i (n : Node P), c.nodes[i]? = some n → n.kind? ≠ some .badge →
    ∃ (e : Edge) (j : Nat) (m : Node P),
      c.outgoing n.id = [e] ∧ j < i ∧ c.nodes[j]? = some m ∧ e.target = m.id
  badges : ∀ n ∈ c.nodes, n.kind? = some .badge → c.outgoing n.id = []
  conditions : ∀ n ∈ c.nodes, n.kind? = some .condition → c.incoming n.id = []
  accepted : ∀ i (hi : i < c.edges.length), (c.eraseEdge i).accepts c.edges[i].connection = true

namespace Rule.Shows

/-- The nodes other than badges, with an edge each. -/
theorem labels_sprouts (h : r.Shows c) :
    (c.nodes.filter (·.kind? != some .badge)).map Node.label = r.sprouts.map (·.node.label) := by
  have hblock : ∀ p ∈ r.planted, ((p.badge :: p.sprouts.map Sprout.node).map Node.label).filter
      (·.2.kind? != some .badge) = p.sprouts.map (·.node.label) := by
    intro p hp
    obtain ⟨g, hg⟩ := h.reads_of_mem p hp
    have hbadge : (p.badge.label.2.kind? != some .badge) = false := by
      simp [Node.label, hg.badge, Payload.kind?]
    rw [List.map_cons, List.filter_cons_of_neg (by simp [hbadge]), List.map_map]
    apply List.filter_eq_self.2
    intro l hl
    obtain ⟨s, hs, rfl⟩ := List.mem_map.1 hl
    simpa [Node.label] using hg.kind_sprout s hs
  have hfilter : (c.nodes.filter (·.kind? != some .badge)).map Node.label =
      (c.nodes.map Node.label).filter (·.2.kind? != some .badge) := by
    rw [List.filter_map]; rfl
  rw [hfilter, h.labels, Rule.layOut, List.map_flatMap, List.filter_flatMap, List.flatMap_congr hblock,
    sprouts, List.map_flatMap]

theorem numbered (h : r.Shows c) : c.ids = (List.range c.nodes.length).map nodeId := by
  have hids : c.ids = (List.range (plantedSize r.guarded)).map nodeId := by rw [h.ids_eq, ids_layOut]
  have hlen : c.nodes.length = plantedSize r.guarded := by
    simpa [Canvas.ids] using congrArg List.length hids
  rw [hids, hlen]

theorem id_getElem? (h : r.Shows c) {i : Nat} {n : Node P} (hn : c.nodes[i]? = some n) : n.id = nodeId i := by
  obtain ⟨m, hm, hmid⟩ := exists_numbered h.numbered (List.getElem?_eq_some_iff.1 hn).1
  rw [hn, Option.some_inj] at hm
  rw [hm, hmid]

theorem consumer (h : r.Shows c) {i : Nat} {n : Node P} (hn : c.nodes[i]? = some n)
    (hk : n.kind? ≠ some .badge) :
    ∃ (e : Edge) (j : Nat) (m : Node P),
      c.outgoing n.id = [e] ∧ j < i ∧ c.nodes[j]? = some m ∧ e.target = m.id := by
  have hmem : n.label ∈ r.sprouts.map (·.node.label) := by
    rw [← h.labels_sprouts]
    exact List.mem_map_of_mem (List.mem_filter.2 ⟨List.mem_of_getElem? hn, by simpa using hk⟩)
  obtain ⟨s, hs, hlabel⟩ := List.mem_map.1 hmem
  obtain ⟨m, j, hl, hmj, -⟩ := links_plant s hs
  -- the node that was made with the edge is this one
  have hsid : s.node.id = n.id := congrArg Prod.fst hlabel
  obtain rfl : j = i := nodeId_injective (hl.id.symm.trans (hsid.trans (h.id_getElem? hn)))
  have hj := (List.getElem?_eq_some_iff.1 hn).1
  have he : s.edge ∈ c.edges := by
    rw [h.edges, edges_layOut]; exact List.mem_map_of_mem hs
  have hm := List.getElem?_eq_getElem (Nat.lt_trans hmj hj)
  refine ⟨s.edge, m, c.nodes[m], ?_, hmj, hm, hl.target.trans (h.id_getElem? hm).symm⟩
  rw [← hsid, hl.id, ← hl.source]
  exact Canvas.outgoing_eq_singleton h.nodup_sources he

theorem freshForest (h : r.Shows c) : c.FreshForest := by
  have hs := h.sound
  have hedges : (c.edges.map Edge.id).Perm ((List.range c.edges.length).map edgeId) := by
    rw [h.edges]; exact r.edgeIds_layOut
  refine ⟨h.numbered, hedges, ?distinct, ?edges, fun i n => h.consumer, ?badges, ?conditions,
    fun i hi => Canvas.accepts_connection_iff.2 (hs.fits_erase hi)⟩
  case distinct => exact hedges.nodup_iff.2 (List.nodup_range.map edgeId_injective)
  case edges =>
    have hlen := congrArg List.length h.labels_sprouts
    rw [List.length_map, List.length_map] at hlen
    rw [hlen, h.edges, edges_layOut, List.length_map]
  case badges =>
    intro n hn hk
    apply List.eq_nil_iff_forall_not_mem.2
    intro e he
    obtain ⟨hec, hes⟩ := Canvas.mem_outgoing.1 he
    obtain ⟨m, hm, hmk⟩ := hs.source hec
    rw [hes, Canvas.node?_of_mem h.nodup_ids hn, Option.some_inj] at hm
    subst hm
    rw [hk] at hmk
    rcases hmk with hmk | hmk <;> cases hmk
  case conditions =>
    intro n hn hk
    cases hp : n.payload with
    | condition t =>
      exact hs.incoming_condition ((Canvas.payload?_of_mem h.nodup_ids hn).trans (congrArg some hp))
    | logic op => rw [Node.kind?, hp] at hk; cases hk
    | badge a => rw [Node.kind?, hp] at hk; cases hk
    | unknown => rw [Node.kind?, hp] at hk; cases hk

end Rule.Shows

/-- The canvas of a rule is a `FreshForest`, with a node for every award and for every node of the trees that guard
one. -/
theorem expand_freshForest (r : Rule Position) (g : Grid Float) :
    (r.expand g).FreshForest ∧
      (r.expand g).nodes.length = r.awards.length +
        (((r.slots.take r.awards.length).flatMap Slot.roots).map Formula.size).sum := by
  have hshows : r.Shows (r.expand g) := r.shows_expandWith g.place
  refine ⟨hshows.freshForest, ?_⟩
  have hids := congrArg List.length hshows.ids_eq
  rw [Rule.ids_layOut, List.length_map, List.length_range, plantedSize_eq, r.length_guarded, r.flatMap_guarded] at hids
  rw [← hids, Canvas.ids, List.length_map]

end BadgeRules
