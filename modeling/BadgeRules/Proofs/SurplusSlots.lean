import BadgeRules.Proofs.Columns
import BadgeRules.Proofs.SavedEntries

/-!
# Slots without an award

A slot that guards no award gives no nodes and no edges, but its trees count for the number of columns. So
a deep tree in such a slot moves all nodes to the right (`Rule.layOut_eq_right`), and the canvas is another
one unless the nodes have saved places (`expand_surplus_slots`).
-/

namespace BadgeRules
open Formula.depth

variable {P : Type}

theorem Canvas.map_map {Q R : Type} (c : Canvas P) (f : P → Q) (g : Q → R) :
    (c.map f).map g = c.map (g ∘ f) := by
  rw [map, map, map, List.map_map]
  rfl

namespace Rule

/-- The rule without the slots that guard no award. -/
def trimmed (r : Rule P) : Rule P := { r with slots := r.slots.take r.awards.length }

theorem guarded_trimmed (r : Rule P) : r.trimmed.guarded = r.guarded := by
  refine List.ext_getElem? fun i => ?_
  rw [getElem?_guarded, getElem?_guarded]
  by_cases hi : i < r.awards.length
  · have hroots : r.trimmed.rootsAt i = r.rootsAt i := by
      rw [rootsAt, rootsAt, trimmed, List.getElem?_take_of_lt hi]
    rw [hroots]
    rfl
  · have hnone : r.awards[i]? = none := List.getElem?_eq_none (Nat.le_of_not_lt hi)
    rw [show r.trimmed.awards = r.awards from rfl, hnone]
    rfl

/-- How many more levels the trees in surplus slots have than all others. -/
def surplusDepth (r : Rule P) : Nat := r.depth - r.trimmed.depth

theorem depth_eq_trimmed (r : Rule P) : r.depth = r.trimmed.depth + r.surplusDepth := by
  have hle : r.trimmed.depth ≤ r.depth := by
    refine Formula.depths_le_iff.2 fun f hf => Formula.depths_le_iff.1 (Nat.le_refl r.depth) f ?_
    exact ((List.take_sublist _ _).flatMap Slot.roots).subset hf
  rw [surplusDepth, Nat.add_sub_cancel' hle]

/-- There are no such levels if no tree in a surplus slot is deeper than all others. -/
theorem surplusDepth_eq_zero_iff (r : Rule P) : r.surplusDepth = 0 ↔
    ∀ s ∈ r.slots.drop r.awards.length, ∀ f ∈ s.roots, f.depth ≤ r.trimmed.depth := by
  have htrimmed : ∀ f ∈ r.trimmed.slots.flatMap Slot.roots, f.depth ≤ r.trimmed.depth :=
    Formula.depths_le_iff.1 (Nat.le_refl _)
  have hroots : r.slots.flatMap Slot.roots =
      r.trimmed.slots.flatMap Slot.roots ++ (r.slots.drop r.awards.length).flatMap Slot.roots := by
    rw [← List.flatMap_append]
    exact congrArg (·.flatMap Slot.roots) (List.take_append_drop _ _).symm
  rw [surplusDepth, Nat.sub_eq_zero_iff_le, depth, Formula.depths_le_iff, hroots, List.forall_mem_append,
    and_iff_right htrimmed, List.forall_mem_flatMap]

/-- The trees in surplus slots move all nodes to the right. -/
theorem layOut_eq_right (r : Rule P) : r.layOut = r.trimmed.layOut.map (Cell.right r.surplusDepth) := by
  have hplanted : r.planted = r.trimmed.planted.map (Planted.right r.surplusDepth) := by
    rw [planted, planted, guarded_trimmed, depth_eq_trimmed]
    exact plant_right (r.guarded_trimmed ▸ r.trimmed.depths_guarded_le) _ _ _
  rw [layOut, layOut, hplanted, Canvas.map]
  simp only [List.flatMap_map, List.map_flatMap, Planted.right, List.map_cons, List.map_map]
  rfl

theorem expandWith_trimmed (r : Rule P) (place : Cell → P) :
    r.expandWith place = r.trimmed.expandWith fun cell => place (cell.right r.surplusDepth) := by
  rw [expandWith, expandWith, layOut_eq_right, Canvas.map_map]
  rfl

end Rule

/-- Surplus slots give no nodes and no edges, but the canvas is that of `Rule.trimmed` on a grid that starts
`surplusDepth` columns further right. It is the same canvas if no tree in a surplus slot is deeper than all
others, and in any case exactly if the nodes without a saved place (`entryFor?`) do not move with the grid. -/
theorem expand_surplus_slots (r : Rule Position) (g : Grid Float) :
    (r.expand g).nodes.map Node.label = (r.trimmed.expand g).nodes.map Node.label ∧
      (r.expand g).edges = (r.trimmed.expand g).edges ∧
      (r.expand g = r.trimmed.expandWith fun cell => g.place (cell.right r.surplusDepth)) ∧
      ((∀ s ∈ r.slots.drop r.awards.length, ∀ f ∈ s.roots, f.depth ≤ r.trimmed.depth) →
        r.expand g = r.trimmed.expand g) ∧
      (r.expand g = r.trimmed.expand g ↔ ∀ i n, r.trimmed.layOut.nodes[i]? = some n →
        Rule.entryFor? (r.layout.getD []) r.trimmed.layOut.ids i = none →
          g.place (n.position.right r.surplusDepth) = g.place n.position) := by
  have hright : r.expand g = r.trimmed.expandWith fun cell => g.place (cell.right r.surplusDepth) :=
    r.expandWith_trimmed g.place
  have hr : r.trimmed.Shows (r.expand g) := hright ▸ r.trimmed.shows_expandWith _
  have ht : r.trimmed.Shows (r.trimmed.expand g) := r.trimmed.shows_expandWith g.place
  refine ⟨hr.labels.trans ht.labels.symm, hr.edges.trans ht.edges.symm, hright, fun h => ?_, ?_⟩
  · refine hright.trans ?_
    rw [r.surplusDepth_eq_zero_iff.2 h]
    exact congrArg r.trimmed.expandWith (funext fun cell => by cases cell <;> rfl)
  · rw [hright]
    exact r.trimmed.expandWith_eq_iff _ _

/-- A badge without conditions stands in the first column, unless a slot too many holds a condition. -/
theorem expand_surplus_slots_gold :
    ∃ r : Rule Position, r.slots.length = 2 ∧ r.awards.length = 1 ∧ r.layout = none ∧
      r.expand ≠ r.trimmed.expand := by
  let r : Rule Position :=
    { id := "r1", name := "Gold", slots := [.many [], .single (.test ⟨"member", .equal, .single (.bool true)⟩)],
      awards := [⟨"GOLD", none, 1⟩] }
  refine ⟨r, rfl, rfl, rfl, fun h => ?_⟩
  have hstay := (expand_surplus_slots r .standard).2.2.2.2.1 h 0 _ rfl rfl
  have hx := congrArg Point.x hstay
  revert hx
  decide

end BadgeRules
