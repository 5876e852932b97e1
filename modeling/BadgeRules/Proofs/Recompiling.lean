import BadgeRules.Proofs.Numbering

/-!
# Expanding a rule and compiling it again

The canvas of a rule guards what the rule guards (`Rule.Shows.guards`), wherever its nodes stand. So
compiling undoes expanding, up to slots with a list of one root, and a compiled rule comes back as it
was (`compile_expand`).
-/

namespace BadgeRules
open Relation

variable {P Q : Type} {c : Canvas P} {r : Rule Q}

/-- `c` is the canvas of `r`, wherever the nodes stand. -/
structure Rule.Shows (r : Rule Q) (c : Canvas P) : Prop where
  labels : c.nodes.map Node.label = r.layOut.nodes.map Node.label
  edges : c.edges = r.layOut.edges

theorem label_restore (saved : List (Placement P)) (ns : List (Node P)) :
    (Rule.restore saved ns).map Node.label = ns.map Node.label := by
  refine List.ext_getElem? fun i => ?_
  simp only [Rule.restore, List.getElem?_map, List.getElem?_mapIdx]
  cases ns[i]? with
  | none => rfl
  | some n =>
    simp only [Option.map_some]
    split <;> rfl

theorem Rule.shows_layOut (r : Rule Q) (place : Cell → P) : r.Shows (r.layOut.map place) := by
  refine ⟨?_, rfl⟩
  rw [Canvas.map, List.map_map]; rfl

theorem Rule.shows_expandWith (r : Rule P) (place : Cell → P) : r.Shows (r.expandWith place) := by
  have h := r.shows_layOut place
  unfold Rule.expandWith
  split
  · exact ⟨(label_restore _ _).trans h.labels, h.edges⟩
  · exact h

namespace Canvas

/-- The guards of a canvas by labels. -/
theorem guards_eq_label (c : Canvas P) :
    c.guards = (c.nodes.map Node.label).filterMap fun l => l.2.award?.map fun a => (a, c.roots l.1) := by
  rw [List.filterMap_map]; rfl

theorem node?_of_mem (h : c.ids.Nodup) {n : Node P} (hn : n ∈ c.nodes) : c.node? n.id = some n := by
  obtain ⟨before, after, hc⟩ := List.append_of_mem hn
  rw [ids, hc, List.map_append, List.map_cons] at h
  have hbefore : ∀ m ∈ before, ¬ (m.id == n.id) = true := by
    intro m hm hid
    refine List.nodup_append.1 h |>.2.2 m.id (List.mem_map_of_mem hm) n.id List.mem_cons_self ?_
    exact eq_of_beq hid
  rw [node?, hc, List.find?_append, List.find?_eq_none.2 hbefore]
  simp

theorem payload?_of_mem (h : c.ids.Nodup) {n : Node P} (hn : n ∈ c.nodes) :
    c.payload? n.id = some n.payload := by
  rw [payload?, node?_of_mem h hn]; rfl

end Canvas

namespace Rule

/-- The edges of the canvas of a rule, with their nodes. -/
def sprouts (r : Rule Q) : List Sprout := r.planted.flatMap Planted.sprouts

theorem edges_layOut (r : Rule Q) : r.layOut.edges = r.sprouts.map Sprout.edge := by
  rw [sprouts, List.map_flatMap]; rfl

theorem ids_layOut (r : Rule Q) : r.layOut.ids = (List.range (plantedSize r.guarded)).map nodeId := by
  rw [List.range_eq_range']; exact ids_plant _ _ _ _

theorem nodup_ids_layOut (r : Rule Q) : r.layOut.ids.Nodup := by
  rw [ids_layOut]; exact List.nodup_range.map nodeId_injective

namespace Shows

theorem ids_eq (h : r.Shows c) : c.ids = r.layOut.ids := by
  have := congrArg (List.map Prod.fst) h.labels
  simpa [Canvas.ids, Node.label, Function.comp_def] using this

theorem incoming (h : r.Shows c) (m : Nat) : c.incoming (nodeId m) = feeding m r.sprouts := by
  rw [Canvas.incoming, h.edges, edges_layOut]; rfl

theorem payload?_sprout (h : r.Shows c) : ∀ s ∈ r.sprouts, c.payload? s.node.id = some s.node.payload := by
  intro s hs
  obtain ⟨p, hp, hs⟩ := List.mem_flatMap.1 hs
  have hmem : s.node ∈ r.layOut.nodes :=
    List.mem_flatMap.2 ⟨p, hp, List.mem_cons_of_mem _ (List.mem_map_of_mem hs)⟩
  rw [Canvas.payload?_congr h.labels]
  exact Canvas.payload?_of_mem r.nodup_ids_layOut hmem

/-- Edges lead from larger to smaller numbers. -/
theorem acyclic (h : r.Shows c) : c.Acyclic := by
  have hstep : ∀ {a b : String}, c.Feeds a b → ∃ m j, b = nodeId m ∧ a = nodeId j ∧ m < j := by
    rintro a b ⟨e, he, rfl, rfl⟩
    rw [h.edges, edges_layOut] at he
    obtain ⟨s, hs, rfl⟩ := List.mem_map.1 he
    obtain ⟨m, j, hl, hmj, -⟩ := links_plant s hs
    exact ⟨m, j, hl.target, hl.source, hmj⟩
  have hpath : ∀ {a b : String}, TransGen c.Feeds a b → ∃ m j, b = nodeId m ∧ a = nodeId j ∧ m < j := by
    intro a b hp
    induction hp with
    | single hs => exact hstep hs
    | tail _ hs ih =>
      obtain ⟨m, j, rfl, ha, hmj⟩ := ih
      obtain ⟨m', j', hb, hj', hmj'⟩ := hstep hs
      obtain rfl := nodeId_injective hj'
      exact ⟨m', j, hb, ha, by omega⟩
  intro id hid
  obtain ⟨m, j, hm, hj, hmj⟩ := hpath hid
  obtain rfl := nodeId_injective (hm.symm.trans hj)
  omega

theorem reads (h : r.Shows c) : List.Forall₂ (Planted.Reads c) r.planted r.guarded :=
  reads_plant (fun m _ _ => h.incoming m) h.payload?_sprout

/-- A planted award gives its node's guard, and nothing for the other nodes. -/
theorem guards_nodes (h : r.Shows c) {p : Planted} {g : Award × List Formula} (hp : p.Reads c g) :
    (p.nodes.map Node.label).filterMap (fun l => l.2.award?.map fun a => (a, c.roots l.1)) = [g] := by
  have hnone : ∀ l ∈ (p.sprouts.map Sprout.node).map Node.label,
      (l.2.award?.map fun a => (a, c.roots l.1)) = none := by
    intro l hl
    simp only [List.map_map, List.mem_map] at hl
    obtain ⟨s, hs, rfl⟩ := hl
    have hpay : s.node.payload ∈ p.sprouts.map (·.node.payload) := List.mem_map.2 ⟨s, hs, rfl⟩
    rw [hp.payloads] at hpay
    show s.node.payload.award?.map _ = none
    rw [award?_payloadsOf _ _ hpay]; rfl
  rw [Planted.nodes, List.map_cons, List.filterMap_cons, List.filterMap_eq_nil_iff.2 hnone]
  simp only [Node.label, hp.badge, Payload.award?_badge, Option.map_some, h.acyclic.roots_eq hp.unfolds]

/-- The canvas of a rule guards what the rule guards. -/
theorem guards (h : r.Shows c) : c.guards = r.guarded := by
  have hplanted : (r.planted.flatMap fun p => (p.nodes.map Node.label).filterMap fun l =>
      l.2.award?.map fun a => (a, c.roots l.1)) = r.guarded.flatMap fun g => [g] := by
    rw [← List.forall₂_eq_eq_eq]
    refine List.rel_flatMap h.reads fun p g hp => ?_
    rw [List.forall₂_eq_eq_eq, h.guards_nodes hp]
  rw [List.flatMap_singleton'] at hplanted
  rw [c.guards_eq_label, h.labels, ← hplanted, ← List.filterMap_flatMap, ← List.map_flatMap]
  rfl

end Shows

end Rule

/-- `compile` after `expand` gives the awards of a rule back and, for each of them, a slot with the roots that
guarded it, node for node. A rule that was compiled itself comes back without any difference. -/
theorem compile_expand :
    (∀ (r : Rule Position) (g : Grid Float) (id name : String) (description : Option String),
      let r' := ((r.expand g).compile id name description).rule
      let roots := (List.range r.awards.length).map fun i => (r.slots[i]?.map Slot.roots).getD []
      r'.awards = r.awards ∧ r'.slots.map Slot.roots = roots ∧ r'.slots = roots.map Slot.ofRoots) ∧
    ∀ (c : Canvas Position) (g : Grid Float) (id name id' name' : String)
      (description description' : Option String),
      let r := (c.compile id name description).rule
      let r' := ((r.expand g).compile id' name' description').rule
      r'.slots = r.slots ∧ r'.awards = r.awards := by
  have hguards : ∀ (r : Rule Position) (g : Grid Float), (r.expand g).guards = r.guarded :=
    fun r g => (r.shows_expandWith g.place).guards
  refine ⟨fun r g id name description => ?rule, fun c g id name id' name' d d' => ⟨?slots, ?awards⟩⟩
  case rule =>
    intro r' roots
    have hroots : r.guarded.map Prod.snd = roots := r.snd_guarded
    refine ⟨?_, ?_, ?_⟩
    · rw [Canvas.awards_compile, hguards, r.fst_guarded]
    · rw [Canvas.roots_compile, hguards, hroots]
    · rw [Canvas.slots_compile, hguards, ← hroots, List.map_map]
      rfl
  case slots => rw [Canvas.slots_compile, hguards, Canvas.guarded_compile, Canvas.slots_compile]
  case awards => rw [Canvas.awards_compile, hguards, Canvas.guarded_compile, Canvas.awards_compile]

end BadgeRules
