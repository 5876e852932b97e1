import BadgeRules.Proofs.FreshForest
import BadgeRules.Proofs.Tracing

/-!
# The columns of an expanded canvas

A forest of `n` levels takes up `n` columns, so in columns `0` to `n - 1` there is always a column left for
the operands of a gate (`Formula.Within`). Within this bound columns are not cut off at
the left: nodes are as many columns before the badges as they are deep (`columns_sproutsOf`), each edge
leads to the next column (`steps_sproutsOf`), and with more room to the left everything moves to the right
(`sproutsOf_right`). Rows are taken one after another (`rows_sproutsOf`).
-/

namespace BadgeRules
open Formula.size Formula.sprouts Formula.depth

variable {P : Type}

namespace Cell

def column : Cell → Nat
  | .badge column _ => column
  | .tree column _ => column

def row : Cell → Nat
  | .badge _ row => row
  | .tree _ row => row

/-- The cell `n` columns to the right. -/
def right (n : Nat) : Cell → Cell
  | .badge column row => .badge (column + n) row
  | .tree column row => .tree (column + n) row

end Cell

namespace Formula

/-- The levels of the nodes of a tree, in pre-order, where its root has level `l`. -/
def levels (l : Nat) : Formula → List Nat
  | .test _ => [l]
  | .gate _ fs => l :: levelsOf (l + 1) fs
where
  levelsOf (l : Nat) : List Formula → List Nat
    | [] => []
    | f :: fs => f.levels l ++ levelsOf l fs

theorem depths_test (t : Comparison) (fs : List Formula) : depths (.test t :: fs) = max 1 (depths fs) := rfl

theorem depths_gate (op : Connective) (gs fs : List Formula) :
    depths (.gate op gs :: fs) = max (1 + depths gs) (depths fs) := rfl

theorem depth_pos (f : Formula) : 0 < f.depth := by
  cases f with
  | test t => exact Nat.one_pos
  | gate op fs => exact Nat.lt_add_right _ Nat.one_pos

/-- A forest that takes up no column is empty. -/
theorem eq_nil_of_depths {fs : List Formula} (h : depths fs = 0) : fs = [] := by
  cases fs with
  | nil => rfl
  | cons f fs =>
    have hf := f.depth_pos
    rw [depths] at h
    omega

/-- A forest with its roots in column `col` has no more levels than there are columns. A gate in column `0`
has no operands, and in all others there is a column for them. -/
inductive Within : Nat → List Formula → Prop
  | nil (col : Nat) : Within col []
  | test {col : Nat} {t : Comparison} {fs : List Formula} (rest : Within col fs) : Within col (.test t :: fs)
  | bare {op : Connective} {fs : List Formula} (rest : Within 0 fs) : Within 0 (.gate op [] :: fs)
  | gate {col : Nat} {op : Connective} {gs fs : List Formula} (up : Within col gs)
      (rest : Within (col + 1) fs) : Within (col + 1) (.gate op gs :: fs)

theorem within_of_depths {col : Nat} {fs : List Formula} (h : depths fs ≤ col + 1) : Within col fs := by
  induction fs using Formula.forest_induction generalizing col with
  | nil => exact .nil col
  | test t fs ih => exact .test (ih (by rw [depths_test] at h; omega))
  | gate op gs fs ihg ih =>
    rw [depths_gate] at h
    have hfs := ih (show depths fs ≤ col + 1 by omega)
    cases col with
    | zero =>
      obtain rfl := eq_nil_of_depths (show depths gs = 0 by omega)
      exact .bare hfs
    | succ col => exact .gate (ihg (by omega)) hfs

/-- Below column `col` there is room for a forest of `col` levels. -/
theorem within_cases {col : Nat} {fs : List Formula} (h : depths fs ≤ col) :
    fs = [] ∨ ∃ c, col = c + 1 ∧ Within c fs := by
  cases col with
  | zero => exact .inl (eq_nil_of_depths (Nat.le_zero.1 h))
  | succ c => exact .inr ⟨c, rfl, within_of_depths h⟩

end Formula

open Formula.levels

/-! ### The cells of a forest -/

section Sprouts

variable {col : Nat} {fs : List Formula}

theorem rows_sproutsOf (q col : Nat) (k : Counters) (fs : List Formula) :
    (sproutsOf q col k fs).map (·.node.position.row) = List.range' k.row (sizes fs) := by
  induction fs using Formula.forest_induction generalizing q col k with
  | nil => rfl
  | test t fs ih =>
    rw [sproutsOf_test, sizes_test, Nat.add_comm 1, List.range'_succ, List.map_cons, ih]
    rfl
  | gate op gs fs ihg ih =>
    rw [sproutsOf_gate, sizes_gate, show 1 + sizes gs + sizes fs = sizes gs + sizes fs + 1 by omega,
      List.range'_succ, ← List.range'_append_1, List.map_cons, List.map_append, ihg, ih]
    show _ :: (List.range' (k.row + 1) _ ++ List.range' (k.row + (1 + sizes gs)) _) = _
    rw [show k.row + (1 + sizes gs) = k.row + 1 + sizes gs by omega]
    rfl

/-- The nodes of a forest are no badges, and stand in rows of their own in the column of the roots or left of
it. -/
theorem tree_sproutsOf (q col : Nat) (k : Counters) (fs : List Formula) : ∀ s ∈ sproutsOf q col k fs,
    s.node.kind? ≠ some .badge ∧ ∃ c i, s.node.position = .tree c i ∧ c ≤ col ∧ k.row ≤ i ∧
      i < k.row + sizes fs := by
  have hcells : ∀ s ∈ sproutsOf q col k fs, s.node.kind? ≠ some .badge ∧
      ∃ c i, s.node.position = .tree c i ∧ c ≤ col := by
    induction fs using Formula.forest_induction generalizing q col k with
    | nil => exact fun _ hs => (List.not_mem_nil hs).elim
    | test t fs ih => exact List.forall_mem_cons.2 ⟨⟨nofun, _, _, rfl, Nat.le_refl _⟩, ih _ _ _⟩
    | gate op gs fs ihg ih =>
      refine List.forall_mem_cons.2 ⟨⟨nofun, _, _, rfl, Nat.le_refl _⟩,
        List.forall_mem_append.2 ⟨fun s hs => ?_, ih _ _ _⟩⟩
      obtain ⟨hkind, c, i, hcell, hc⟩ := ihg _ _ _ s hs
      exact ⟨hkind, c, i, hcell, Nat.le_trans hc (Nat.sub_le _ _)⟩
  intro s hs
  obtain ⟨hkind, c, i, hcell, hc⟩ := hcells s hs
  have hrow : s.node.position.row ∈ (sproutsOf q col k fs).map (·.node.position.row) := List.mem_map_of_mem hs
  rw [rows_sproutsOf, hcell, List.mem_range'_1] at hrow
  exact ⟨hkind, c, i, hcell, hc, hrow⟩

theorem nodup_cells_sproutsOf (q col : Nat) (k : Counters) (fs : List Formula) :
    ((sproutsOf q col k fs).map (·.node.position)).Nodup := by
  refine List.Nodup.of_map Cell.row ?_
  rw [List.map_map]
  exact (rows_sproutsOf ..).symm ▸ List.nodup_range'

/-- Every node stands as many columns further left as it is deeper. -/
theorem columns_sproutsOf (h : Formula.Within col fs) (q l : Nat) (k : Counters) :
    List.Forall₂ (fun s d => s.node.position.column + d = col + l) (sproutsOf q col k fs) (levelsOf l fs) := by
  induction h generalizing q l k with
  | nil col => exact .nil
  | test _ ih => exact .cons rfl (ih q l _)
  | bare _ ih => exact .cons rfl (ih q l _)
  | @gate col op gs fs _ _ ihg ih =>
    have hup := ihg k.node (l + 1) k.afterRoot
    rw [show col + (l + 1) = col + 1 + l by omega] at hup
    exact .cons rfl (List.rel_append hup (ih q l _))

/-- Every edge leads to the next column: that of the consumer from the roots, and else that of a node of
the forest. -/
theorem steps_sproutsOf (h : Formula.Within col fs) (q : Nat) (k : Counters) : ∀ s ∈ sproutsOf q col k fs,
    (s.edge.target = nodeId q ∧ s.node.position.column = col) ∨ ∃ t ∈ sproutsOf q col k fs,
      t.node.id = s.edge.target ∧ t.node.position.column = s.node.position.column + 1 := by
  induction h generalizing q k with
  | nil col => exact fun _ hs => (List.not_mem_nil hs).elim
  | test _ ih =>
    refine List.forall_mem_cons.2 ⟨.inl ⟨rfl, rfl⟩, fun s hs => (ih q _ s hs).imp id ?_⟩
    rintro ⟨t, ht, hstep⟩
    exact ⟨t, List.mem_cons_of_mem _ ht, hstep⟩
  | bare _ ih =>
    refine List.forall_mem_cons.2 ⟨.inl ⟨rfl, rfl⟩, fun s hs => (ih q _ s hs).imp id ?_⟩
    rintro ⟨t, ht, hstep⟩
    exact ⟨t, List.mem_cons_of_mem _ ht, hstep⟩
  | @gate col op gs fs _ _ ihg ih =>
    rw [sproutsOf_gate]
    refine List.forall_mem_cons.2 ⟨.inl ⟨rfl, rfl⟩, List.forall_mem_append.2 ⟨fun s hs => .inr ?_, fun s hs => ?_⟩⟩
    · rcases ihg k.node k.afterRoot s hs with ⟨htarget, hcol⟩ | ⟨t, ht, hstep⟩
      · exact ⟨_, List.mem_cons_self, htarget.symm, by rw [hcol]; rfl⟩
      · exact ⟨t, List.mem_cons_of_mem _ (List.mem_append_left _ ht), hstep⟩
    · refine (ih q _ s hs).imp id ?_
      rintro ⟨t, ht, hstep⟩
      exact ⟨t, List.mem_cons_of_mem _ (List.mem_append_right _ ht), hstep⟩

/-- The same sprout `n` columns to the right. -/
def Sprout.right (n : Nat) (s : Sprout) : Sprout := { s with node := s.node.map (Cell.right n) }

theorem sproutsOf_right (h : Formula.Within col fs) (q n : Nat) (k : Counters) :
    sproutsOf q (col + n) k fs = (sproutsOf q col k fs).map (Sprout.right n) := by
  induction h generalizing q k with
  | nil col => rfl
  | test _ ih => rw [sproutsOf_test, sproutsOf_test, ih, List.map_cons]; rfl
  | bare _ ih => rw [sproutsOf_gate, sproutsOf_gate, ih, List.map_cons, List.map_append]; rfl
  | @gate col op gs fs _ _ ihg ih =>
    rw [sproutsOf_gate, sproutsOf_gate, ih, show col + 1 + n - 1 = col + n by omega, ihg, List.map_cons,
      List.map_append]
    rfl

end Sprouts

/-! ### The cells of planted awards -/

section Plant

variable {col : Nat} {gs : List (Award × List Formula)}

theorem columns_plant (h : ∀ g ∈ gs, depths g.2 ≤ col) (row : Nat) (k : Counters) :
    List.Forall₂ (fun p g => List.Forall₂ (fun s d => s.node.position.column + d = col) p.sprouts
      (levelsOf 1 g.2)) (plant col row k gs) gs := by
  induction gs generalizing row k with
  | nil => exact .nil
  | cons g gs ih =>
    obtain ⟨hg, hgs⟩ := List.forall_mem_cons.1 h
    refine .cons ?_ (ih hgs _ _)
    rcases Formula.within_cases hg with hnil | ⟨c, rfl, hwithin⟩
    · rw [hnil]
      exact .nil
    · exact columns_sproutsOf hwithin k.node 1 _

/-- Every edge leads to a node in the next column. -/
theorem steps_plant (h : ∀ g ∈ gs, depths g.2 ≤ col) (row : Nat) (k : Counters) :
    ∀ s ∈ (plant col row k gs).flatMap Planted.sprouts, ∃ n ∈ (plant col row k gs).flatMap Planted.nodes,
      n.id = s.edge.target ∧ n.position.column = s.node.position.column + 1 := by
  induction gs generalizing row k with
  | nil => exact fun _ hs => (List.not_mem_nil hs).elim
  | cons g gs ih =>
    obtain ⟨hg, hgs⟩ := List.forall_mem_cons.1 h
    rw [plant, List.flatMap_cons, List.flatMap_cons]
    refine List.forall_mem_append.2 ⟨fun s hs => ?_, fun s hs => ?_⟩
    · rcases Formula.within_cases hg with hnil | ⟨c, rfl, hwithin⟩
      · rw [hnil] at hs
        exact (List.not_mem_nil hs).elim
      rcases steps_sproutsOf hwithin k.node _ s hs with ⟨htarget, hcol⟩ | ⟨t, ht, hstep⟩
      · exact ⟨⟨nodeId k.node, .badge (c + 1) row, .badge g.1⟩, List.mem_append_left _ List.mem_cons_self,
          htarget.symm, by rw [hcol]; rfl⟩
      · exact ⟨t.node, List.mem_append_left _ (List.mem_cons_of_mem _ (List.mem_map_of_mem ht)), hstep⟩
    · obtain ⟨n, hn, hstep⟩ := ih hgs _ _ s hs
      exact ⟨n, List.mem_append_right _ hn, hstep⟩

/-- Badges stand in column `col` and the other nodes left of it. The rows of either kind have not been
taken before. -/
theorem cell_plant (h : ∀ g ∈ gs, depths g.2 ≤ col) (row : Nat) (k : Counters) :
    ∀ n ∈ (plant col row k gs).flatMap Planted.nodes,
      (n.kind? = some .badge ∧ ∃ i, n.position = .badge col i ∧ row ≤ i) ∨
        (n.kind? ≠ some .badge ∧ ∃ c i, n.position = .tree c i ∧ c < col ∧ k.row ≤ i) := by
  induction gs generalizing row k with
  | nil => exact fun _ hn => (List.not_mem_nil hn).elim
  | cons g gs ih =>
    obtain ⟨hg, hgs⟩ := List.forall_mem_cons.1 h
    rw [plant, List.flatMap_cons, Planted.nodes]
    refine List.forall_mem_append.2 ⟨List.forall_mem_cons.2 ⟨.inl ⟨rfl, row, rfl, Nat.le_refl _⟩, ?_⟩, ?_⟩
    · refine List.forall_mem_map.2 fun s hs => .inr ?_
      obtain ⟨hkind, c, i, hcell, hc, hi, -⟩ := tree_sproutsOf _ _ _ _ s hs
      rcases Formula.within_cases hg with hnil | ⟨c', rfl, -⟩
      · rw [hnil] at hs
        exact (List.not_mem_nil hs).elim
      · exact ⟨hkind, c, i, hcell, Nat.lt_succ_of_le hc, hi⟩
    · intro n hn
      rcases ih hgs _ _ n hn with ⟨hkind, i, hcell, hi⟩ | ⟨hkind, c, i, hcell, hc, hi⟩
      · exact .inl ⟨hkind, i, hcell, Nat.le_of_succ_le hi⟩
      · exact .inr ⟨hkind, c, i, hcell, hc, Nat.le_trans (Nat.le_add_right _ _) hi⟩

/-- No cell is taken twice. -/
theorem nodup_cells_plant (h : ∀ g ∈ gs, depths g.2 ≤ col) (row : Nat) (k : Counters) :
    (((plant col row k gs).flatMap Planted.nodes).map Node.position).Nodup := by
  induction gs generalizing row k with
  | nil => exact List.nodup_nil
  | cons g gs ih =>
    obtain ⟨-, hgs⟩ := List.forall_mem_cons.1 h
    let trees : Counters := { k with node := k.node + 1 }
    let ss := sproutsOf k.node (col - 1) trees g.2
    have hlater := cell_plant hgs (row + 1) (trees.advance (sizes g.2))
    have htree : ∀ s ∈ ss, _ := tree_sproutsOf k.node (col - 1) trees g.2
    rw [plant, List.flatMap_cons, Planted.nodes, List.cons_append, List.map_cons, List.map_append, List.map_map]
    refine List.nodup_cons.2 ⟨?badge, List.nodup_append.2 ⟨nodup_cells_sproutsOf .., ih hgs _ _, ?apart⟩⟩
    case badge =>
      intro hmem
      rcases List.mem_append.1 hmem with hmem | hmem
      · obtain ⟨s, hs, hcell⟩ := List.mem_map.1 hmem
        obtain ⟨-, c, i, htreecell, -⟩ := htree s hs
        rw [Function.comp_apply, htreecell] at hcell
        cases hcell
      · obtain ⟨n, hn, hcell⟩ := List.mem_map.1 hmem
        rcases hlater n hn with ⟨-, i, hbadge, hi⟩ | ⟨-, c, i, htreecell, -⟩
        · rw [hbadge, Cell.badge.injEq] at hcell
          omega
        · rw [htreecell] at hcell
          cases hcell
    case apart =>
      intro x hx y hy hxy
      obtain ⟨s, hs, rfl⟩ := List.mem_map.1 hx
      obtain ⟨n, hn, rfl⟩ := List.mem_map.1 hy
      obtain ⟨-, c, i, hcell, -, -, hi⟩ := htree s hs
      rw [Function.comp_apply, hcell] at hxy
      rcases hlater n hn with ⟨-, j, hbadge, -⟩ | ⟨-, c', j, htreecell, -, hj⟩
      · rw [hbadge] at hxy
        cases hxy
      · rw [htreecell, Cell.tree.injEq] at hxy
        have hrow : (trees.advance (sizes g.2)).row = trees.row + sizes g.2 := rfl
        omega

/-- The same planted award `n` columns to the right. -/
def Planted.right (n : Nat) (p : Planted) : Planted :=
  ⟨p.badge.map (Cell.right n), p.sprouts.map (Sprout.right n)⟩

theorem plant_right (h : ∀ g ∈ gs, depths g.2 ≤ col) (n row : Nat) (k : Counters) :
    plant (col + n) row k gs = (plant col row k gs).map (Planted.right n) := by
  induction gs generalizing row k with
  | nil => rfl
  | cons g gs ih =>
    obtain ⟨hg, hgs⟩ := List.forall_mem_cons.1 h
    have htrees : ∀ trees, sproutsOf k.node (col + n - 1) trees g.2 =
        (sproutsOf k.node (col - 1) trees g.2).map (Sprout.right n) := by
      intro trees
      rcases Formula.within_cases hg with hnil | ⟨c, rfl, hwithin⟩
      · rw [hnil]; rfl
      · rw [show c + 1 + n - 1 = c + n by omega, Nat.add_sub_cancel, sproutsOf_right hwithin]
    rw [plant, plant, ih hgs, htrees, List.map_cons]
    rfl

end Plant

/-! ### The cells of an expanded rule -/

namespace Rule

/-- The trees that are planted have no more levels than there are columns. -/
theorem depths_guarded_le (r : Rule P) : ∀ g ∈ r.guarded, depths g.2 ≤ r.depth := by
  intro g hg
  rw [Formula.depths_le_iff]
  intro f hf
  have hroot : f ∈ r.guarded.flatMap Prod.snd := List.mem_flatMap.2 ⟨g, hg, hf⟩
  rw [flatMap_guarded] at hroot
  have hsub := (List.take_sublist r.awards.length r.slots).flatMap Slot.roots
  exact Formula.depths_le_iff.1 (Nat.le_refl r.depth) f (hsub.subset hroot)

end Rule

end BadgeRules
