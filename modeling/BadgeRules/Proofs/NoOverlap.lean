import Mathlib.Algebra.Order.Ring.Rat
import Mathlib.Data.Nat.Cast.Order.Ring
import BadgeRules.Proofs.Columns

/-!
# No two nodes of a grid overlap

In exact arithmetic a grid with positive distances has a place of its own for every cell that nodes of an
expanded rule stand in (`Grid.place_inj`): badges share a column with badges only, and the other nodes have
rows of their own. Places follow columns, so edges lead one column to the right and nothing lies left of
the origin or above it (`expand_no_overlap`).
-/

namespace BadgeRules
open Formula.levels

/-! ### Places of cells -/

/-- Columns and rows are some way apart. -/
structure Grid.Spaced (g : Grid ℚ) : Prop where
  columns : 0 < g.columnSpacing
  rows : 0 < g.rowSpacing
  badgeRows : 0 < g.badgeRowSpacing

namespace Grid

variable {g : Grid ℚ} {a b : Cell}

theorem x_place (g : Grid ℚ) (a : Cell) : (g.place a).x = g.origin.x + a.column * g.columnSpacing := by
  cases a <;> rfl

theorem x_place_succ (h : b.column = a.column + 1) : (g.place b).x = (g.place a).x + g.columnSpacing := by
  rw [x_place, x_place, h, Nat.cast_succ, add_mul, one_mul, add_assoc]

theorem affine_lt {m n : Nat} {o d : ℚ} (hd : 0 < d) (h : m < n) : o + m * d < o + n * d :=
  add_lt_add_right (mul_lt_mul_of_pos_right (Nat.cast_lt.2 h) hd) o

theorem affine_inj {m n : Nat} {o d : ℚ} (hd : 0 < d) (h : o + m * d = o + n * d) : m = n := by
  rcases Nat.lt_trichotomy m n with hlt | heq | hlt
  · exact absurd h (ne_of_lt (affine_lt hd hlt))
  · exact heq
  · exact absurd h (ne_of_gt (affine_lt hd hlt))

namespace Spaced

theorem column_eq (hg : g.Spaced) (h : g.place a = g.place b) : a.column = b.column := by
  have hx := congrArg Point.x h
  rw [x_place, x_place] at hx
  exact affine_inj hg.columns hx

/-- Nothing is left of the origin or above it. -/
theorem origin_le (hg : g.Spaced) (a : Cell) : g.origin.x ≤ (g.place a).x ∧ g.origin.y ≤ (g.place a).y := by
  have hle : ∀ (o d : ℚ) (n : Nat), 0 < d → o ≤ o + n * d := fun o d n hd =>
    le_add_of_nonneg_right (mul_nonneg (Nat.cast_nonneg n) (le_of_lt hd))
  cases a with
  | badge c i => exact ⟨hle _ _ _ hg.columns, hle _ _ _ hg.badgeRows⟩
  | tree c i => exact ⟨hle _ _ _ hg.columns, hle _ _ _ hg.rows⟩

end Spaced

end Grid

/-! ### Places of nodes -/

namespace Rule

variable {P : Type} {g : Grid ℚ}

/-- Badges stand in the last column, and the other nodes left of it. -/
theorem cell_layOut (r : Rule P) : ∀ n ∈ r.layOut.nodes,
    (n.kind? = some .badge ∧ ∃ i, n.position = .badge r.depth i) ∨
      (n.kind? ≠ some .badge ∧ ∃ c i, n.position = .tree c i ∧ c < r.depth) := by
  intro n hn
  rcases cell_plant r.depths_guarded_le 0 ⟨0, 0, 0⟩ n hn with ⟨hkind, i, hcell, -⟩ | ⟨hkind, c, i, hcell, hc, -⟩
  · exact .inl ⟨hkind, i, hcell⟩
  · exact .inr ⟨hkind, c, i, hcell, hc⟩

/-- Nodes at the same place stand in the same cell. -/
theorem place_inj (r : Rule P) (hg : g.Spaced) {n m : Node Cell} (hn : n ∈ r.layOut.nodes)
    (hm : m ∈ r.layOut.nodes) (h : g.place n.position = g.place m.position) : n.position = m.position := by
  have hcolumn := hg.column_eq h
  have hy := congrArg Point.y h
  rcases r.cell_layOut n hn with ⟨-, i, hni⟩ | ⟨-, c, i, hni, hc⟩
  · rcases r.cell_layOut m hm with ⟨-, j, hmj⟩ | ⟨-, c', j, hmj, hc'⟩
    · rw [hni, hmj] at hy
      rw [hni, hmj, Grid.affine_inj hg.badgeRows hy]
    · rw [hni, hmj, Cell.column, Cell.column] at hcolumn
      omega
  · rcases r.cell_layOut m hm with ⟨-, j, hmj⟩ | ⟨-, c', j, hmj, -⟩
    · rw [hni, hmj, Cell.column, Cell.column] at hcolumn
      omega
    · rw [hni, hmj] at hy hcolumn
      rw [hni, hmj, Grid.affine_inj hg.rows hy, show c = c' from hcolumn]

theorem nodup_places (r : Rule P) (hg : g.Spaced) : ((r.layOut.map g.place).nodes.map Node.position).Nodup := by
  have hcells : (r.layOut.nodes.map Node.position).Nodup := nodup_cells_plant r.depths_guarded_le 0 ⟨0, 0, 0⟩
  have hplaces : (r.layOut.map g.place).nodes.map Node.position =
      (r.layOut.nodes.map Node.position).map g.place := by
    rw [Canvas.map, List.map_map, List.map_map]
    rfl
  rw [hplaces]
  refine hcells.map_on fun a ha b hb hab => ?_
  obtain ⟨n, hn, rfl⟩ := List.mem_map.1 ha
  obtain ⟨m, hm, rfl⟩ := List.mem_map.1 hb
  exact r.place_inj hg hn hm hab

theorem node?_place (r : Rule P) (place : Cell → Point ℚ) {n : Node Cell} (hn : n ∈ r.layOut.nodes) :
    (r.layOut.map place).node? n.id = some (n.map place) :=
  Canvas.node?_of_mem (c := r.layOut.map place) (n := n.map place) (r.shows_layOut place).nodup_ids
    (List.mem_map_of_mem hn)

/-- Every edge leads one column to the right. -/
theorem exists_step (r : Rule P) (g : Grid ℚ) {e : Edge} (he : e ∈ r.layOut.edges) : ∃ n m,
    (r.layOut.map g.place).node? e.source = some n ∧ (r.layOut.map g.place).node? e.target = some m ∧
      m.position.x = n.position.x + g.columnSpacing := by
  rw [edges_layOut] at he
  obtain ⟨s, hs, rfl⟩ := List.mem_map.1 he
  obtain ⟨m, hm, hmid, hcolumn⟩ := steps_plant r.depths_guarded_le 0 ⟨0, 0, 0⟩ s hs
  have hnode : s.node ∈ r.layOut.nodes := by
    obtain ⟨p, hp, hsp⟩ := List.mem_flatMap.1 hs
    exact List.mem_flatMap.2 ⟨p, hp, List.mem_cons_of_mem _ (List.mem_map_of_mem hsp)⟩
  obtain ⟨_, j, hl, -⟩ := links_plant s hs
  have hsource := r.node?_place g.place hnode
  rw [hl.id, ← hl.source] at hsource
  exact ⟨_, _, hsource, hmid ▸ r.node?_place g.place hm, Grid.x_place_succ hcolumn⟩

end Rule

/-- On a `Spaced` grid in exact arithmetic the nodes of a rule without a saved layout have distinct positions. Each
edge leads one column to the right, no node is left of the origin or above it, and the badges share a column
right of all other nodes. A node on level `d` of a tree (`levelsOf`) stands `d` columns before it. -/
theorem expand_no_overlap (r : Rule (Point ℚ)) (hr : r.layout = none) (g : Grid ℚ) (hg : g.Spaced) :
    let c := r.expandWith g.place
    (c.nodes.map Node.position).Nodup ∧
      (∀ e ∈ c.edges, ∃ n m, c.node? e.source = some n ∧ c.node? e.target = some m ∧
        m.position.x = n.position.x + g.columnSpacing) ∧
      (∀ n ∈ c.nodes, g.origin.x ≤ n.position.x ∧ g.origin.y ≤ n.position.y) ∧
      (∃ x, ∀ n ∈ c.nodes, (n.kind? = some .badge → n.position.x = x) ∧
        (n.kind? ≠ some .badge → n.position.x < x)) ∧
      List.Forall₂ (fun p a => List.Forall₂ (fun s d => s.node.position.column + d = r.depth) p.sprouts
        (levelsOf 1 a.2)) r.planted r.guarded := by
  intro c
  have hc : c = r.layOut.map g.place := by
    show r.expandWith g.place = _
    rw [Rule.expandWith, hr]
  rw [hc]
  refine ⟨r.nodup_places hg, fun e he => r.exists_step g he, fun n hn => ?origin, ?badges,
    columns_plant r.depths_guarded_le 0 ⟨0, 0, 0⟩⟩
  case origin =>
    obtain ⟨m, -, rfl⟩ := List.mem_map.1 hn
    exact hg.origin_le m.position
  case badges =>
    refine ⟨g.origin.x + r.depth * g.columnSpacing, fun n hn => ?_⟩
    obtain ⟨m, hm, rfl⟩ := List.mem_map.1 hn
    have hx : (m.map g.place).position.x = g.origin.x + m.position.column * g.columnSpacing := g.x_place _
    rw [hx]
    rcases r.cell_layOut m hm with ⟨hkind, i, hcell⟩ | ⟨hkind, c, i, hcell, hlt⟩
    · exact ⟨fun _ => by rw [hcell]; rfl, fun h => absurd hkind h⟩
    · exact ⟨fun h => absurd h hkind, fun _ => by rw [hcell]; exact Grid.affine_lt hg.columns hlt⟩

/-- Two badges that share a gate, which is expanded twice, and a badge that nothing leads to. -/
theorem expand_no_overlap_shared :
    ∃ (r : Rule (Point ℚ)) (g : Grid ℚ), r.layout = none ∧ g.Spaced ∧ r.awards.length = 3 ∧ r.depth = 2 ∧
      (r.expandWith g.place).nodes.length = 9 ∧ ((r.expandWith g.place).nodes.map Node.position).Nodup := by
  let member : Formula := .test ⟨"member", .equal, .single (.bool true)⟩
  let vip : Formula := .test ⟨"vip", .equal, .single (.bool true)⟩
  let r : Rule (Point ℚ) :=
    { id := "r1", name := "Shared", slots := [.single (.gate .and [member, vip]), .many [],
        .single (.gate .and [member, vip])]
      awards := [⟨"GOLD", none, 1⟩, ⟨"SILVER", none, 1⟩, ⟨"BRONZE", none, 2⟩] }
  let g : Grid ℚ := ⟨250, 100, 150, ⟨50, 50⟩⟩
  have hg : g.Spaced := ⟨by decide, by decide, by decide⟩
  exact ⟨r, g, rfl, hg, rfl, rfl, rfl, (expand_no_overlap r rfl g hg).1⟩

end BadgeRules
