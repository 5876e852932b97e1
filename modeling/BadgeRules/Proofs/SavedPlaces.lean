import BadgeRules.Proofs.Occurrences
import BadgeRules.Proofs.Restoring

/-!
# Places that come back

Saving a canvas and loading it makes a node for each occurrence. If the ids of the canvas are `Aligned`
with its occurrences, every node is where it was (`places_reopened`). If they are not, it depends on
where the nodes stood, and some places are lost (`exists_displaced`).
-/

namespace BadgeRules

variable {P : Type}

theorem Rule.layOut_congr {Q : Type} {r : Rule P} {s : Rule Q} (hs : r.slots = s.slots)
    (ha : r.awards = s.awards) : r.layOut = s.layOut := by
  have hg : r.guarded = s.guarded := by
    rw [guarded, guarded, ha]
    refine congrArg (s.awards.mapIdx ·) (funext fun i => funext fun a => ?_)
    rw [rootsAt, rootsAt, hs]
  rw [layOut, layOut, planted, planted, depth, depth, hs, hg]

/-! ### Saving and loading -/

namespace Canvas

variable {c : Canvas P} {walk : String → List Edge} {id name : String} {description : Option String}

/-- The nodes that are not in any tree. -/
def others (c : Canvas P) (walk : String → List Edge) : List (Node P) :=
  c.nodes.filter fun n => !((c.occurrences walk).map (·.id)).contains n.id

theorem saved_subset (walk : String → List Edge) : c.occurrences walk ++ c.others walk ⊆ c.nodes :=
  List.append_subset.2 ⟨c.occurrences_subset walk, List.filter_subset_self _⟩

theorem not_mem_others : ∀ id ∈ (c.occurrences walk).map (·.id), id ∉ (c.others walk).map (·.id) := by
  intro id hid h
  obtain ⟨n, hn, rfl⟩ := List.mem_map.1 h
  have := (List.mem_filter.1 hn).2
  simp only [List.contains_iff_mem, Bool.not_eq_true', ← Bool.not_eq_true] at this
  exact this hid

theorem mem_ids_iff : id ∈ (c.occurrences walk ++ c.others walk).map (·.id) ↔ id ∈ c.ids := by
  constructor
  · intro h
    obtain ⟨n, hn, rfl⟩ := List.mem_map.1 h
    exact List.mem_map_of_mem (saved_subset walk hn)
  · intro h
    rw [List.map_append]
    by_cases hid : id ∈ (c.occurrences walk).map (·.id)
    · exact List.mem_append_left _ hid
    obtain ⟨n, hn, rfl⟩ := List.mem_map.1 h
    exact List.mem_append_right _ (List.mem_map_of_mem (List.mem_filter.2 ⟨hn, by simpa using hid⟩))

/-- The canvas after it was saved as a rule and loaded again. -/
def reopened (place : Cell → P) (c : Canvas P) (id name : String) (description : Option String) : Canvas P :=
  (c.compile id name description).rule.expandWith place

/-- The new nodes, before they are moved to saved places. -/
def renewed (place : Cell → P) (c : Canvas P) (id name : String) (description : Option String) :
    List (Node P) :=
  ((c.compile id name description).rule.layOut.map place).nodes

section Reopened

variable {place : Cell → P}

theorem nodes_reopened (hc : c.Acyclic) (hw : c.Walked walk) :
    (c.reopened place id name description).nodes = Rule.restore
      (Rule.snapshot (c.occurrences walk ++ c.others walk)) (c.renewed place id name description) := by
  have hlayout : (c.compile id name description).rule.layout =
      some (Rule.snapshot (c.occurrences walk ++ c.others walk)) := by
    rw [others, ← hc.visited_eq hw]; rfl
  rw [reopened, Rule.expandWith, hlayout]; rfl

theorem payloads_reopened (hc : c.Acyclic) (hw : c.Walked walk) :
    (c.reopened place id name description).nodes.map Node.payload =
      (c.occurrences walk).map Node.payload := by
  rw [← hc.visited_eq hw]
  exact (Rule.shows_expandWith _ place).payloads_compiled

theorem ids_renewed (hc : c.Acyclic) (hw : c.Walked walk) :
    (c.renewed place id name description).map (·.id) =
      (List.range (c.occurrences walk).length).map nodeId := by
  rw [← hc.visited_eq hw]
  exact (Rule.shows_layOut _ place).ids_compiled

/-- Places come back on a canvas whose ids are aligned. -/
theorem places_reopened (hc : c.Acyclic) (hw : c.Walked walk)
    (ha : Aligned c.ids ((c.occurrences walk).map (·.id))) :
    (c.reopened place id name description).nodes.map Node.position =
      (c.occurrences walk).map Node.position := by
  rw [nodes_reopened hc hw]
  exact Rule.restore_aligned (ids_renewed hc hw) not_mem_others fun i hi hid =>
    ha i hi (mem_ids_iff.1 hid)

end Reopened

/-! ### Other places for the same nodes -/

/-- The same canvas with its nodes placed by `f`. -/
def placed (f : String → P) (c : Canvas P) : Canvas P :=
  { c with nodes := c.nodes.map fun n => { n with position := f n.id } }

theorem labels_placed (f : String → P) (c : Canvas P) :
    (c.placed f).nodes.map Node.label = c.nodes.map Node.label := by
  rw [placed, List.map_map]; rfl

theorem position_placed {f : String → P} {n : Node P} (h : n ∈ (c.placed f).nodes) :
    n.position = f n.id := by
  obtain ⟨m, -, rfl⟩ := List.mem_map.1 h; rfl

section Relabel

variable {d : Canvas P}

theorem label_occurrences (c : Canvas P) (walk : String → List Edge) :
    (c.occurrences walk).map Node.label =
      ((c.nodes.map Node.label).filter (·.2.kind? == some .badge)).flatMap fun l =>
        l :: (walk l.1).filterMap fun w => (c.nodes.map Node.label).find? (·.1 == w.source) := by
  rw [List.filter_map, List.flatMap_map, occurrences, List.map_flatMap]
  refine List.flatMap_congr fun b _ => ?_
  rw [List.map_cons, List.map_filterMap]
  simp only [← node?_map_label]
  rfl

theorem incoming_congr (he : c.edges = d.edges) : c.incoming = d.incoming :=
  funext fun id => by rw [incoming, incoming, he]

theorem Walked.congr (hl : c.nodes.map Node.label = d.nodes.map Node.label) (he : c.edges = d.edges)
    (hw : c.Walked walk) : d.Walked walk := by
  intro id
  obtain ⟨fs, hfs⟩ := hw id
  rw [← incoming_congr he]
  exact ⟨fs, hfs.congr (payload?_congr hl) (incoming_congr he)⟩

theorem Acyclic.guards_congr (hc : c.Acyclic) (hl : c.nodes.map Node.label = d.nodes.map Node.label)
    (he : c.edges = d.edges) : d.guards = c.guards := by
  have hd : d.Acyclic := hc.of_subset fun e h => he ▸ h
  have hroots : d.roots = c.roots := by
    funext id
    obtain ⟨ws, hws, -⟩ := hc.unfolds_roots id
    have hws' := hws.congr (payload?_congr hl) (incoming_congr he)
    rw [incoming_congr he] at hws'
    exact hd.roots_eq hws'
  rw [guards_eq_label, guards_eq_label, hl, hroots]

end Relabel

section Displaced

variable {place : Cell → P} {f : String → P}

theorem renewed_placed (hc : c.Acyclic) :
    (c.placed f).renewed place id name description = c.renewed place id name description := by
  have hg : (c.placed f).guards = c.guards := hc.guards_congr (labels_placed f c).symm rfl
  rw [renewed, renewed, Rule.layOut_congr (s := (c.compile id name description).rule)]
  · rw [slots_compile, slots_compile, hg]
  · rw [awards_compile, awards_compile, hg]

theorem ids_occurrences_placed :
    ((c.placed f).occurrences walk).map (·.id) = (c.occurrences walk).map (·.id) := by
  have hl := label_occurrences (c.placed f) walk
  rw [labels_placed, ← label_occurrences] at hl
  simpa [Node.label, Function.comp_def] using congrArg (List.map Prod.fst) hl

theorem ids_placed : (c.placed f).ids = c.ids := by
  rw [ids, placed, List.map_map]; rfl

theorem Acyclic.placed (hc : c.Acyclic) : (c.placed f).Acyclic := hc.of_subset fun _ h => h

theorem Walked.placed (hw : c.Walked walk) : (c.placed f).Walked walk :=
  hw.congr (labels_placed f c).symm rfl

theorem length_occurrences_placed :
    ((c.placed f).occurrences walk).length = (c.occurrences walk).length := by
  have hids : ((c.placed f).occurrences walk).map (·.id) = _ := ids_occurrences_placed
  simpa using congrArg List.length hids

theorem places_occurrences_placed :
    ((c.placed f).occurrences walk).map Node.position = (c.occurrences walk).map fun n => f n.id := by
  have hpos : ((c.placed f).occurrences walk).map Node.position =
      (((c.placed f).occurrences walk).map (·.id)).map f := by
    rw [List.map_map]
    exact List.map_congr_left fun n hn => position_placed (occurrences_subset _ walk hn)
  rw [hpos, ids_occurrences_placed, List.map_map]; rfl

/-- When an old id goes to another node, that node stands where the old one was. -/
theorem place_of_stale (hc : c.Acyclic) (hw : c.Walked walk) {i : Nat}
    (hi : i < (c.occurrences walk).length) (hid : nodeId i ∈ c.ids) :
    (((c.placed f).reopened place id name description).nodes.map Node.position)[i]? = some (f (nodeId i)) := by
  have hi' : i < ((c.placed f).occurrences walk).length := by rw [length_occurrences_placed]; exact hi
  have hsaved : nodeId i ∈ ((c.placed f).occurrences walk ++ (c.placed f).others walk).map (·.id) := by
    rw [mem_ids_iff, ids_placed]; exact hid
  obtain ⟨m, hm, hmid, hpos⟩ := Rule.restore_stale (ids_renewed hc.placed hw.placed) hi' hsaved
  rw [nodes_reopened hc.placed hw.placed, hpos, position_placed (saved_subset walk hm), hmid]

/-- The last occurrence of a node that keeps its id is put on the grid, if a new id is made for it. -/
theorem place_of_repeated (hc : c.Acyclic) (hw : c.Walked walk) {i j : Nat}
    (hi : i < (c.occurrences walk).length) (hj : LastAt ((c.occurrences walk).map (·.id)) (nodeId i) j)
    (hjd : nodeId j ∉ c.ids) :
    (((c.placed f).reopened place id name description).nodes.map Node.position)[j]? =
      ((c.renewed place id name description).map Node.position)[j]? := by
  rw [nodes_reopened hc.placed hw.placed, ← renewed_placed hc (f := f)]
  refine Rule.restore_repeated (ids_renewed hc.placed hw.placed) not_mem_others (i := i) ?_ ?_ ?_
  · rw [length_occurrences_placed]; exact hi
  · rw [ids_occurrences_placed]; exact hj
  · rw [mem_ids_iff, ids_placed]; exact hjd

/-- Where ids are not aligned, some places do not come back. -/
theorem exists_displaced (hc : c.Acyclic) (hw : c.Walked walk)
    (ha : ¬ Aligned c.ids ((c.occurrences walk).map (·.id))) {p q : P} (hpq : p ≠ q) :
    ∃ f, ((c.placed f).reopened place id name description).nodes.map Node.position ≠
      ((c.placed f).occurrences walk).map Node.position := by
  rcases stale_or_repeated ha with ⟨i, hi, hid, hne⟩ | ⟨i, j, hi, hj, hjd⟩
  · rw [List.length_map] at hi
    refine ⟨fun x => if x = nodeId i then p else q, fun h => ?_⟩
    have hplace := congrArg (·[i]?) h
    simp only [place_of_stale hc hw hi hid, places_occurrences_placed, List.getElem?_map,
      List.getElem?_eq_getElem hi, Option.map_some, Option.some_inj, ne_eq] at hplace hne
    rw [if_pos trivial, if_neg hne] at hplace
    exact hpq hplace
  · rw [List.length_map] at hi
    have hjl : j < (c.occurrences walk).length := by simpa using hj.lt_length
    have hnew : (c.renewed place id name description).map (·.id) = _ := ids_renewed hc hw
    obtain ⟨n, hn, -⟩ := Rule.exists_numbered hnew hjl
    -- wherever the grid has the node, one of `p` and `q` is elsewhere
    obtain ⟨x, hx⟩ : ∃ x, x ≠ n.position := by
      by_cases hp : p = n.position
      · exact ⟨q, fun hq => hpq (hp.trans hq.symm)⟩
      · exact ⟨p, hp⟩
    refine ⟨fun _ => x, fun h => hx ?_⟩
    have hplace := congrArg (·[j]?) h
    simp only [place_of_repeated hc hw hi hj hjd, places_occurrences_placed, List.getElem?_map, hn,
      List.getElem?_eq_getElem hjl, Option.map_some, Option.some_inj] at hplace
    exact hplace.symm

end Displaced

end Canvas

/-- `expand` after `compile` gives a `Drawn` canvas a node for each of its `occurrences`. `restore` gives their
positions back if the ids are `Aligned`; if they are not, it misplaces a node for some positions (`placed`). -/
theorem places_restored_iff_aligned {c : Canvas Position} (hc : c.Drawn) (g : Grid Float) (id name : String)
    (description : Option String) :
    ∃ walk, c.Walked walk ∧
      let reopen : Canvas Position → Canvas Position := fun d => (d.compile id name description).rule.expand g
      (reopen c).nodes.map Node.payload = (c.occurrences walk).map Node.payload ∧
      (Aligned c.ids ((c.occurrences walk).map (·.id)) →
        (reopen c).nodes.map Node.position = (c.occurrences walk).map Node.position) ∧
      (¬ Aligned c.ids ((c.occurrences walk).map (·.id)) →
        ∃ f, (reopen (c.placed f)).nodes.map Node.position ≠
          ((c.placed f).occurrences walk).map Node.position) := by
  have hacyclic := hc.sound.acyclic
  obtain ⟨walk, hw⟩ := hacyclic.exists_walked
  have hpq : (⟨0, 0⟩ : Position) ≠ ⟨1, 0⟩ := by
    intro h
    have := congrArg Point.x h
    revert this
    decide
  exact ⟨walk, hw, Canvas.payloads_reopened hacyclic hw, Canvas.places_reopened hacyclic hw,
    fun ha => Canvas.exists_displaced hacyclic hw ha hpq⟩

/-- Of two badges with a condition each, `node_1` was deleted. The condition that is left is the third
node now, and takes the place of the second badge. -/
theorem places_lost_after_deletion :
    ∃ (c : Canvas Position) (walk : String → List Edge), c.ids = ["node_0", "node_2", "node_3"] ∧ c.Drawn ∧
      c.Walked walk ∧ (c.occurrences walk).map (·.id) = c.ids ∧
      ∃ f, (((c.placed f).compile "r" "R").rule.expand).nodes.map Node.position ≠
        ((c.placed f).occurrences walk).map Node.position := by
  let t : Comparison := ⟨"member", .equal, .single (.bool true)⟩
  let e : Edge := { id := "edge_1", source := "node_3", target := "node_2" }
  let c : Canvas Position :=
    ⟨[⟨"node_0", ⟨500, 0⟩, .badge ⟨"GOLD", none, 1⟩⟩, ⟨"node_2", ⟨500, 200⟩, .badge ⟨"SILVER", none, 1⟩⟩,
      ⟨"node_3", ⟨0, 200⟩, .condition t⟩], [e]⟩
  have hdrawn : c.Drawn := by
    unfold Canvas.Drawn Canvas.acceptsInTurn Canvas.acceptsInTurn Canvas.accepts Canvas.check
    rw [Canvas.index_eq_scan]
    cbv
  obtain ⟨walk, hw, -, -, hlost⟩ := places_restored_iff_aligned hdrawn .standard "r" "R" none
  have hgold : walk "node_0" = [] := by
    obtain ⟨fs, h⟩ := hw "node_0"
    exact (h.unique (Canvas.Unfolds.nil (c := c))).2
  have hsilver : walk "node_2" = [e] := by
    obtain ⟨fs, h⟩ := hw "node_2"
    exact (h.unique (.test (c := c) (e := e) (t := t) rfl .nil)).2
  have hocc : (c.occurrences walk).map (·.id) = ["node_0", "node_2", "node_3"] := by
    show List.map _ (List.flatMap _ [_, _]) = _
    simp only [List.flatMap_cons, hgold, hsilver]
    rfl
  refine ⟨c, walk, rfl, hdrawn, hw, hocc, hlost fun ha => ?_⟩
  have hlast := (ha 2 (by rw [hocc]; decide) (by decide)).here
  rw [hocc] at hlast
  revert hlast
  decide

end BadgeRules
