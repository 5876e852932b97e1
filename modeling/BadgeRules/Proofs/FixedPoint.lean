import BadgeRules.Proofs.SavedPlaces

/-!
# Expanded canvases are fixed points

Saving a canvas and loading it makes a node for each occurrence. On the canvas of a rule the nodes occur
once each, in their order (`Rule.Shows.occurrences_eq`), so the new nodes get the ids that the old ones
have, and with the ids their places. The numbers of nodes and edges do not depend on the grid
(`Rule.Shows.congr`), so the canvas comes back as it is (`Rule.Shows.reopened_eq`).
-/

namespace BadgeRules
open Formula.size Formula.sprouts

variable {P Q R : Type} {c : Canvas P}

/-! ### What does not depend on the grid -/

/-- A sprout without its cell. -/
def Sprout.wiring (s : Sprout) : (String × Payload) × Edge := (s.node.label, s.edge)

theorem wiring_sproutsOf (q col col' : Nat) (k : Counters) (fs : List Formula) :
    (sproutsOf q col k fs).map Sprout.wiring = (sproutsOf q col' k fs).map Sprout.wiring := by
  induction fs using Formula.forest_induction generalizing q col col' k with
  | nil => rfl
  | test t fs ih => rw [sproutsOf_test, sproutsOf_test, List.map_cons, List.map_cons, ih q col col']; rfl
  | gate op gs fs ihg ih =>
    rw [sproutsOf_gate, sproutsOf_gate, List.map_cons, List.map_cons, List.map_append, List.map_append,
      ihg k.node (col - 1) (col' - 1), ih q col col']
    rfl

/-- A planted award without its cells. -/
def Planted.wiring (p : Planted) : (String × Payload) × List ((String × Payload) × Edge) :=
  (p.badge.label, p.sprouts.map Sprout.wiring)

theorem wiring_plant (col col' row row' : Nat) (k : Counters) (gs : List (Award × List Formula)) :
    (plant col row k gs).map Planted.wiring = (plant col' row' k gs).map Planted.wiring := by
  induction gs generalizing row row' k with
  | nil => rfl
  | cons g gs ih =>
    rw [plant, plant, List.map_cons, List.map_cons, ih (row + 1) (row' + 1), Planted.wiring,
      Planted.wiring, wiring_sproutsOf _ (col - 1) (col' - 1)]
    rfl

namespace Rule

variable {r : Rule Q} {s : Rule R}

theorem labels_layOut (r : Rule Q) : r.layOut.nodes.map Node.label =
    (r.planted.map Planted.wiring).flatMap fun p => p.1 :: p.2.map Prod.fst := by
  rw [layOut, List.map_flatMap, List.flatMap_map]
  refine List.flatMap_congr fun p _ => ?_
  rw [Planted.wiring, List.map_cons, List.map_map, List.map_map]
  rfl

theorem wires_layOut (r : Rule Q) :
    r.layOut.edges = (r.planted.map Planted.wiring).flatMap fun p => p.2.map Prod.snd := by
  rw [layOut, List.flatMap_map]
  refine List.flatMap_congr fun p _ => ?_
  rw [Planted.wiring, List.map_map]
  rfl

/-- Rules that guard the same show the same. -/
theorem Shows.congr (h : r.Shows c) (hg : r.guarded = s.guarded) : s.Shows c := by
  have hw : r.planted.map Planted.wiring = s.planted.map Planted.wiring := by
    rw [planted, planted, hg]
    exact wiring_plant ..
  refine ⟨h.labels.trans ?_, h.edges.trans ?_⟩
  · rw [labels_layOut, labels_layOut, hw]
  · rw [wires_layOut, wires_layOut, hw]

end Rule

/-! ### The occurrences of nodes on the canvas of a rule -/

/-- Nodes of a canvas with ids of their own are told apart by their ids. -/
theorem Canvas.eq_nodes_of_ids (h : c.ids.Nodup) {ns : List (Node P)} (hns : ns ⊆ c.nodes)
    (hids : ns.map (·.id) = c.ids) : ns = c.nodes := by
  have hlook : ∀ ms : List (Node P), ms ⊆ c.nodes → (ms.map (·.id)).filterMap c.node? = ms := by
    intro ms hms
    have hself : ms.filterMap (fun n => c.node? n.id) = ms.filterMap some :=
      List.filterMap_congr fun n hn => node?_of_mem h (hms hn)
    rw [List.filterMap_map]
    exact hself.trans List.filterMap_some
  calc ns = (ns.map (·.id)).filterMap c.node? := (hlook ns hns).symm
    _ = c.ids.filterMap c.node? := by rw [hids]
    _ = c.nodes := hlook c.nodes (List.Subset.refl _)

theorem nodes_eq_of_labels {ns ms : List (Node P)} (hl : ns.map Node.label = ms.map Node.label)
    (hp : ns.map Node.position = ms.map Node.position) : ns = ms := by
  have hinj : Function.Injective fun n : Node P => (n.label, n.position) := by
    rintro ⟨i, p, d⟩ ⟨j, q, e⟩ h
    simp only [Node.label, Prod.mk.injEq] at h
    obtain ⟨⟨rfl, rfl⟩, rfl⟩ := h
    rfl
  have hzip : ∀ l : List (Node P),
      l.map (fun n => (n.label, n.position)) = (l.map Node.label).zip (l.map Node.position) :=
    fun l => List.zip_map'.symm
  refine List.map_injective_iff.2 hinj ?_
  rw [hzip, hzip, hl, hp]

namespace Rule.Shows

variable {r : Rule Q} {walk : String → List Edge}

theorem nodup_ids (h : r.Shows c) : c.ids.Nodup := by
  rw [h.ids_eq]; exact r.nodup_ids_layOut

/-- The source of an edge is the node that was made with it. -/
theorem label_source (h : r.Shows c) {s : Sprout} (hs : s ∈ r.sprouts) :
    (c.node? s.edge.source).map Node.label = some s.node.label := by
  obtain ⟨m, j, hl, -⟩ := links_plant s hs
  obtain ⟨n, hn, hp⟩ := Option.map_eq_some_iff.1 (h.payload?_sprout s hs)
  rw [hl.source, ← hl.id, hn, Option.map_some, Node.label, Canvas.id_of_node? hn, hp]
  rfl

theorem reads_of_mem (h : r.Shows c) : ∀ p ∈ r.planted, ∃ g, p.Reads c g :=
  ((List.forall₂_and_left _ _).1 (h.reads.imp fun _ g hp => ⟨⟨g, hp⟩, hp⟩)).1

theorem labels_badges (h : r.Shows c) :
    (c.ofKind .badge).map Node.label = r.planted.map (·.badge.label) := by
  have hone : ∀ p ∈ r.planted,
      ((p.badge :: p.sprouts.map Sprout.node).map Node.label).filter (·.2.kind? == some .badge) =
        [p.badge.label] := by
    intro p hp
    obtain ⟨g, hg⟩ := h.reads_of_mem p hp
    have hnone : ((p.sprouts.map Sprout.node).map Node.label).filter (·.2.kind? == some .badge) = [] := by
      refine List.filter_eq_nil_iff.2 fun l hl => ?_
      simp only [List.map_map, List.mem_map] at hl
      obtain ⟨s, hs, rfl⟩ := hl
      simpa [Node.label] using hg.kind_sprout s hs
    rw [List.map_cons, List.filter_cons_of_pos (by simp [Node.label, hg.badge, Payload.kind?]), hnone]
  have hfilter : (c.ofKind .badge).map Node.label =
      (c.nodes.map Node.label).filter (·.2.kind? == some .badge) := by
    rw [List.filter_map]; rfl
  rw [hfilter, h.labels, Rule.layOut, List.map_flatMap, List.filter_flatMap, List.flatMap_congr hone,
    List.map_eq_flatMap]

/-- The nodes occur once each, in their order. -/
theorem occurrences_eq (h : r.Shows c) (hw : c.Walked walk) : c.occurrences walk = c.nodes := by
  have hwalk : ∀ p ∈ r.planted, walk p.badge.label.1 = p.sprouts.map Sprout.edge := by
    intro p hp
    obtain ⟨g, hg⟩ := h.reads_of_mem p hp
    obtain ⟨fs, hfs⟩ := hw p.badge.id
    exact (hfs.unique hg.unfolds).2
  have hsources : ∀ p ∈ r.planted,
      (p.sprouts.map Sprout.edge).filterMap (fun w => (c.node? w.source).map Node.label) =
        (p.sprouts.map Sprout.node).map Node.label := by
    intro p hp
    rw [List.filterMap_map, List.map_map, ← List.filterMap_eq_map]
    exact List.filterMap_congr fun s hs => h.label_source (List.mem_flatMap.2 ⟨p, hp, hs⟩)
  have hlabels : (c.occurrences walk).map Node.label = c.nodes.map Node.label := by
    have hbadges : (c.occurrences walk).map Node.label =
        ((c.ofKind .badge).map Node.label).flatMap fun l =>
          l :: (walk l.1).filterMap fun w => (c.node? w.source).map Node.label := by
      rw [Canvas.occurrences, List.map_flatMap, List.flatMap_map]
      refine List.flatMap_congr fun b _ => ?_
      rw [List.map_cons, List.map_filterMap]
      rfl
    rw [hbadges, h.labels_badges, h.labels, Rule.layOut, List.map_flatMap, List.flatMap_map]
    refine List.flatMap_congr fun p hp => ?_
    rw [hwalk p hp, hsources p hp, List.map_cons]
  refine Canvas.eq_nodes_of_ids h.nodup_ids (c.occurrences_subset walk) ?_
  simpa [Canvas.ids, Node.label, Function.comp_def] using congrArg (List.map Prod.fst) hlabels

theorem aligned (h : r.Shows c) : Aligned c.ids c.ids := by
  have hids : c.ids = (List.range (plantedSize r.guarded)).map nodeId := by
    rw [h.ids_eq, Rule.ids_layOut]
  intro i hi _
  have hi' : i < plantedSize r.guarded := by simpa [hids] using hi
  refine ⟨by rw [hids, List.getElem?_map, List.getElem?_range hi']; rfl, fun j hij hj => ?_⟩
  rw [hids, List.getElem?_map] at hj
  obtain ⟨k, hk, hki⟩ := Option.map_eq_some_iff.1 hj
  obtain ⟨hjl, rfl⟩ := List.getElem?_eq_some_iff.1 hk
  rw [List.getElem_range] at hki
  exact absurd (nodeId_injective hki) (Nat.ne_of_gt hij)

/-- The canvas of a rule comes back as it is, wherever its nodes stand. -/
theorem reopened_eq (h : r.Shows c) (place : Cell → P) (id name : String) (description : Option String) :
    c.reopened place id name description = c := by
  have hagain : (c.compile id name description).rule.Shows c :=
    h.congr (by rw [Canvas.guarded_compile, h.guards])
  have hshows : (c.compile id name description).rule.Shows (c.reopened place id name description) :=
    Rule.shows_expandWith _ place
  obtain ⟨walk, hw⟩ := h.acyclic.exists_walked
  have hocc := h.occurrences_eq hw
  have hplaces : (c.reopened place id name description).nodes.map Node.position =
      c.nodes.map Node.position := by
    rw [Canvas.places_reopened h.acyclic hw (by rw [hocc]; exact h.aligned), hocc]
  have hedges : (c.reopened place id name description).edges = c.edges :=
    hshows.edges.trans hagain.edges.symm
  calc c.reopened place id name description
      = ⟨(c.reopened place id name description).nodes, (c.reopened place id name description).edges⟩ := rfl
    _ = ⟨c.nodes, c.edges⟩ := by
      rw [nodes_eq_of_labels (hshows.labels.trans hagain.labels.symm) hplaces, hedges]
    _ = c := rfl

end Rule.Shows

/-! ### Moved nodes -/

/-- The same canvas with its `i`-th node at `place i`. -/
def Canvas.arranged (place : Nat → P) (c : Canvas P) : Canvas P :=
  { c with nodes := c.nodes.mapIdx fun i n => { n with position := place i } }

theorem Canvas.labels_arranged (place : Nat → P) (c : Canvas P) :
    (c.arranged place).nodes.map Node.label = c.nodes.map Node.label := by
  refine List.ext_getElem? fun i => ?_
  simp only [arranged, List.getElem?_map, List.getElem?_mapIdx, Option.map_map]
  rfl

/-- `expand` after `compile` gives an expanded canvas back, on any grid and wherever its nodes were moved
(`arranged`). -/
theorem expand_compile_arranged (r : Rule Position) (g₁ g₂ : Grid Float) (place : Nat → Position)
    (id name : String) (description : Option String) :
    let c := (r.expand g₁).arranged place
    (c.compile id name description).rule.expand g₂ = c := by
  have hshows := r.shows_expandWith g₁.place
  have hmoved : r.Shows ((r.expand g₁).arranged place) :=
    ⟨(Canvas.labels_arranged place _).trans hshows.labels, hshows.edges⟩
  exact hmoved.reopened_eq g₂.place id name description

end BadgeRules
