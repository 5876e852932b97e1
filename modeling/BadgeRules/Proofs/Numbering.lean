import Mathlib.Algebra.GroupWithZero.Nat
import Mathlib.Data.List.Nodup
import Std.Data.String.ToNat
import BadgeRules.Proofs.Unfolding
import BadgeRules.Rule.Expand

/-!
# How an expanded canvas is numbered

Nodes are numbered in pre-order without gaps (`ids_layOut`), and every edge leads from a larger to a
smaller number (`Sprout.Links`), so a tree's own numbers tell its edges from those of its neighbours.
From this the trees can be read back: a forest unfolds on every canvas that holds its nodes and has no
other edges into them (`unfolds_sproutsOf`).
-/

namespace BadgeRules
open Relation Formula Formula.size Formula.sprouts

variable {P : Type} {c : Canvas P}

theorem append_toString_injective (s : String) : Function.Injective fun n : Nat => s ++ toString n := by
  intro m n h
  have h' := congrArg String.toList h
  simp only [String.toList_append, List.append_cancel_left_eq] at h'
  exact Nat.repr_injective (String.toList_inj.1 h')

theorem nodeId_injective : Function.Injective nodeId := append_toString_injective "node_"

theorem edgeId_injective : Function.Injective edgeId := append_toString_injective "edge_"

/-- Induction along a forest: its first tree, upstream of it, and beside it. -/
theorem Formula.forest_induction {motive : List Formula → Prop} (nil : motive [])
    (test : ∀ t fs, motive fs → motive (.test t :: fs))
    (gate : ∀ op gs fs, motive gs → motive fs → motive (.gate op gs :: fs)) : ∀ fs, motive fs
  | [] => nil
  | .test t :: fs => test t fs (forest_induction nil test gate fs)
  | .gate op gs :: fs =>
    gate op gs fs (forest_induction nil test gate gs) (forest_induction nil test gate fs)

/-! ### The sprouts of a forest -/

section Sprouts

variable {q col : Nat} {k : Counters} {fs gs : List Formula}

theorem sproutsOf_test (t : Comparison) : sproutsOf q col k (.test t :: fs) =
    ⟨⟨nodeId k.node, .tree col k.row, .condition t⟩,
      { id := edgeId k.edge, source := nodeId k.node, target := nodeId q }⟩ ::
      sproutsOf q col (k.advance 1) fs := rfl

theorem sproutsOf_gate (op : Connective) : sproutsOf q col k (.gate op gs :: fs) =
    ⟨⟨nodeId k.node, .tree col k.row, .logic op⟩,
      { id := edgeId (k.edge + sizes gs), source := nodeId k.node, target := nodeId q }⟩ ::
      (sproutsOf k.node (col - 1) k.afterRoot gs ++ sproutsOf q col (k.advance (1 + sizes gs)) fs) := rfl

theorem sizes_test (t : Comparison) : sizes (.test t :: fs) = 1 + sizes fs := rfl

theorem sizes_gate (op : Connective) : sizes (.gate op gs :: fs) = 1 + sizes gs + sizes fs := rfl

@[simp] theorem Counters.node_advance (n : Nat) : (k.advance n).node = k.node + n := rfl

@[simp] theorem Counters.node_afterRoot : k.afterRoot.node = k.node + 1 := rfl

theorem Counters.lt_advance (hq : q < k.node) (n : Nat) : q < (k.advance n).node := Nat.lt_add_right n hq

theorem Counters.lt_afterRoot : k.node < k.afterRoot.node := Nat.lt_succ_self _

/-- The edge of a sprout leads from the sprout's own node `j` to node `m`. -/
structure Sprout.Links (s : Sprout) (m j : Nat) : Prop where
  id : s.node.id = nodeId j
  source : s.edge.source = nodeId j
  target : s.edge.target = nodeId m

theorem ids_sproutsOf (q col : Nat) (k : Counters) (fs : List Formula) :
    (sproutsOf q col k fs).map (·.node.id) = (List.range' k.node (sizes fs)).map nodeId := by
  induction fs using Formula.forest_induction generalizing q col k with
  | nil => rfl
  | test t fs ih =>
    rw [sproutsOf_test, sizes_test, Nat.add_comm 1, List.range'_succ, List.map_cons, List.map_cons, ih]
    rfl
  | gate op gs fs ihg ih =>
    rw [sproutsOf_gate, sizes_gate, show 1 + sizes gs + sizes fs = sizes gs + sizes fs + 1 by omega,
      List.range'_succ, ← List.range'_append_1]
    simp only [List.map_cons, List.map_append, ihg, ih, Counters.node_afterRoot, Counters.node_advance]
    rw [show k.node + (1 + sizes gs) = k.node + 1 + sizes gs by omega]

/-- Numbers grow upstream, and the consumer `q` is the only one outside. -/
theorem links_sproutsOf (hq : q < k.node) : ∀ s ∈ sproutsOf q col k fs, ∃ m j, s.Links m j ∧ m < j ∧
    (m = q ∨ k.node ≤ m) ∧ k.node ≤ j ∧ j < k.node + sizes fs := by
  induction fs using Formula.forest_induction generalizing q col k with
  | nil => exact fun _ hs => (List.not_mem_nil hs).elim
  | test t fs ih =>
    intro s hs
    rw [sproutsOf_test] at hs
    rw [sizes_test]
    rcases List.mem_cons.1 hs with rfl | hs
    · exact ⟨q, k.node, ⟨rfl, rfl, rfl⟩, hq, .inl rfl, Nat.le_refl _, by omega⟩
    · obtain ⟨m, j, hl, hmj, hm, hj, hj'⟩ := ih (Counters.lt_advance hq _) s hs
      simp only [Counters.node_advance] at hm hj hj'
      exact ⟨m, j, hl, hmj, by omega, by omega, by omega⟩
  | gate op gs fs ihg ih =>
    intro s hs
    rw [sproutsOf_gate] at hs
    rw [sizes_gate]
    rcases List.mem_cons.1 hs with rfl | hs
    · exact ⟨q, k.node, ⟨rfl, rfl, rfl⟩, hq, .inl rfl, Nat.le_refl _, by omega⟩
    rcases List.mem_append.1 hs with hs | hs
    · obtain ⟨m, j, hl, hmj, hm, hj, hj'⟩ := ihg Counters.lt_afterRoot s hs
      simp only [Counters.node_afterRoot] at hm hj hj'
      exact ⟨m, j, hl, hmj, by omega, by omega, by omega⟩
    · obtain ⟨m, j, hl, hmj, hm, hj, hj'⟩ := ih (Counters.lt_advance hq _) s hs
      simp only [Counters.node_advance] at hm hj hj'
      exact ⟨m, j, hl, hmj, by omega, by omega, by omega⟩

/-! ### The edges into a node -/

/-- The edges of sprouts that lead to node `m`. -/
def feeding (m : Nat) (ss : List Sprout) : List Edge :=
  (ss.map Sprout.edge).filter (·.target == nodeId m)

theorem feeding_append (m : Nat) (ss ss' : List Sprout) :
    feeding m (ss ++ ss') = feeding m ss ++ feeding m ss' := by
  rw [feeding, List.map_append, List.filter_append]; rfl

theorem feeding_cons_eq {m : Nat} {s : Sprout} (ss : List Sprout) (h : s.edge.target = nodeId m) :
    feeding m (s :: ss) = s.edge :: feeding m ss := by
  rw [feeding, List.map_cons, List.filter_cons_of_pos (by simp [h])]; rfl

theorem feeding_cons_ne {m : Nat} {s : Sprout} (ss : List Sprout) (h : s.edge.target ≠ nodeId m) :
    feeding m (s :: ss) = feeding m ss := by
  rw [feeding, List.map_cons, List.filter_cons_of_neg (by simp [h])]; rfl

theorem feeding_eq_nil {m : Nat} {ss : List Sprout} (h : ∀ s ∈ ss, s.edge.target ≠ nodeId m) :
    feeding m ss = [] := by
  induction ss with
  | nil => rfl
  | cons s ss ih =>
    rw [feeding_cons_ne ss (h s List.mem_cons_self), ih fun s hs => h s (List.mem_cons_of_mem _ hs)]

/-- No edge of a forest leads to a number outside of it, but for the consumer's. -/
theorem feeding_sproutsOf_eq_nil {m : Nat} (hq : q < k.node) (hm : m ≠ q)
    (hout : m < k.node ∨ k.node + sizes fs ≤ m) : feeding m (sproutsOf q col k fs) = [] := by
  refine feeding_eq_nil fun s hs h => ?_
  obtain ⟨i, j, hl, hij, hi, hj, hj'⟩ := links_sproutsOf hq s hs
  obtain rfl := nodeId_injective (hl.target.symm.trans h)
  omega

/-- A forest can be read off a canvas that holds its nodes and all edges into them. -/
theorem unfolds_sproutsOf (hq : q < k.node)
    (hin : ∀ m, k.node ≤ m → m < k.node + sizes fs →
      c.incoming (nodeId m) = feeding m (sproutsOf q col k fs))
    (hlook : ∀ s ∈ sproutsOf q col k fs, c.payload? s.node.id = some s.node.payload) :
    c.Unfolds (feeding q (sproutsOf q col k fs)) fs ((sproutsOf q col k fs).map Sprout.edge) := by
  induction fs using Formula.forest_induction generalizing q col k with
  | nil => exact .nil
  | test t fs ih =>
    rw [sizes_test] at hin
    rw [sproutsOf_test] at hin hlook ⊢
    rw [feeding_cons_eq _ rfl]
    refine .test (hlook _ List.mem_cons_self) (ih (Counters.lt_advance hq _) (fun m hm hm' => ?_) fun s hs =>
      hlook s (List.mem_cons_of_mem _ hs))
    simp only [Counters.node_advance] at hm hm'
    rw [hin m (by omega) (by omega), feeding_cons_ne _ fun h => absurd (nodeId_injective h) (by omega)]
  | gate op gs fs ihg ih =>
    rw [sizes_gate] at hin
    rw [sproutsOf_gate] at hin hlook ⊢
    have hroot : ∀ m, k.node ≤ m → nodeId q ≠ nodeId m := fun m hm h => absurd (nodeId_injective h) (by omega)
    rw [feeding_cons_eq _ rfl, feeding_append,
      feeding_sproutsOf_eq_nil Counters.lt_afterRoot (Nat.ne_of_lt hq) (.inl (Nat.lt_succ_of_lt hq)),
      List.nil_append, List.map_cons, List.map_append]
    -- upstream of the gate and beside it lie disjoint ranges of numbers
    refine .gate (hlook _ List.mem_cons_self) ?_ (ih (Counters.lt_advance hq _) (fun m hm hm' => ?_)
      fun s hs => hlook s (List.mem_cons_of_mem _ (List.mem_append_right _ hs)))
    · have hnode := hin k.node (Nat.le_refl _) (by omega)
      rw [feeding_cons_ne _ (hroot _ (Nat.le_refl _)), feeding_append,
        feeding_sproutsOf_eq_nil (q := q) (Counters.lt_advance hq _) (Nat.ne_of_gt hq)
          (.inl (by simp only [Counters.node_advance]; omega)),
        List.append_nil] at hnode
      rw [hnode]
      refine ihg Counters.lt_afterRoot (fun m hm hm' => ?_) fun s hs =>
        hlook s (List.mem_cons_of_mem _ (List.mem_append_left _ hs))
      simp only [Counters.node_afterRoot] at hm hm'
      rw [hin m (by omega) (by omega), feeding_cons_ne _ (hroot m (by omega)), feeding_append,
        feeding_sproutsOf_eq_nil (q := q) (Counters.lt_advance hq _) (by omega)
          (.inl (by simp only [Counters.node_advance]; omega)),
        List.append_nil]
    · simp only [Counters.node_advance] at hm hm'
      rw [hin m (by omega) (by omega), feeding_cons_ne _ (hroot m (by omega)), feeding_append,
        feeding_sproutsOf_eq_nil (q := k.node) Counters.lt_afterRoot (by omega)
          (.inr (by simp only [Counters.node_afterRoot]; omega)),
        List.nil_append]

end Sprouts

/-- What the nodes of a tree stand for, in pre-order. -/
def Formula.payloads : Formula → List Payload
  | .test t => [.condition t]
  | .gate op fs => .logic op :: payloadsOf fs
where
  payloadsOf : List Formula → List Payload
    | [] => []
    | f :: fs => f.payloads ++ payloadsOf fs

open Formula.payloads

theorem payloads_sproutsOf (q col : Nat) (k : Counters) (fs : List Formula) :
    (sproutsOf q col k fs).map (·.node.payload) = payloadsOf fs := by
  induction fs using Formula.forest_induction generalizing q col k with
  | nil => rfl
  | test t fs ih => rw [sproutsOf_test, List.map_cons, ih]; rfl
  | gate op gs fs ihg ih => rw [sproutsOf_gate, List.map_cons, List.map_append, ihg, ih]; rfl

theorem award?_payloadsOf (fs : List Formula) : ∀ p ∈ payloadsOf fs, p.award? = none := by
  induction fs using Formula.forest_induction with
  | nil => exact fun _ hp => (List.not_mem_nil hp).elim
  | test t fs ih =>
    intro p hp
    rcases List.mem_cons.1 hp with rfl | hp
    · rfl
    · exact ih p hp
  | gate op gs fs ihg ih =>
    intro p hp
    rcases List.mem_cons.1 hp with rfl | hp
    · rfl
    rcases List.mem_append.1 hp with hp | hp
    · exact ihg p hp
    · exact ih p hp

/-! ### Planted awards -/

def Planted.nodes (p : Planted) : List (Node Cell) := p.badge :: p.sprouts.map Sprout.node

/-- The number of nodes of awards with their trees. -/
def plantedSize (gs : List (Award × List Formula)) : Nat := (gs.map fun g => 1 + sizes g.2).sum

section Plant

variable {col row : Nat} {k : Counters} {gs : List (Award × List Formula)}

theorem plantedSize_cons (g : Award × List Formula) :
    plantedSize (g :: gs) = 1 + sizes g.2 + plantedSize gs := by simp [plantedSize]

theorem ids_plant (col row : Nat) (k : Counters) (gs : List (Award × List Formula)) :
    ((plant col row k gs).flatMap Planted.nodes).map (·.id) =
      (List.range' k.node (plantedSize gs)).map nodeId := by
  induction gs generalizing row k with
  | nil => rfl
  | cons g gs ih =>
    rw [plantedSize_cons, show 1 + sizes g.2 + plantedSize gs = sizes g.2 + plantedSize gs + 1 by omega,
      List.range'_succ, ← List.range'_append_1]
    have htrees := ids_sproutsOf k.node (col - 1) { k with node := k.node + 1 } g.2
    simp only [plant, List.flatMap_cons, List.map_append, ih, Planted.nodes, List.map_cons, List.map_map,
      Function.comp_def, Counters.node_advance]
    rw [htrees]
    rfl

theorem links_plant : ∀ s ∈ (plant col row k gs).flatMap Planted.sprouts,
    ∃ m j, s.Links m j ∧ m < j ∧ k.node ≤ m ∧ j < k.node + plantedSize gs := by
  induction gs generalizing row k with
  | nil => exact fun _ hs => (List.not_mem_nil hs).elim
  | cons g gs ih =>
    intro s hs
    rw [plant, List.flatMap_cons] at hs
    rw [plantedSize_cons]
    rcases List.mem_append.1 hs with hs | hs
    · obtain ⟨m, j, hl, hmj, hm, hj, hj'⟩ :=
        links_sproutsOf (k := { k with node := k.node + 1 }) (Nat.lt_succ_self _) s hs
      simp only at hm hj hj'
      exact ⟨m, j, hl, hmj, by omega, by omega⟩
    · obtain ⟨m, j, hl, hmj, hm, hj⟩ := ih s hs
      simp only [Counters.node_advance] at hm hj
      exact ⟨m, j, hl, hmj, by omega, by omega⟩

theorem feeding_plant_eq_nil {m : Nat} (hm : m < k.node ∨ k.node + plantedSize gs ≤ m) :
    feeding m ((plant col row k gs).flatMap Planted.sprouts) = [] := by
  refine feeding_eq_nil fun s hs h => ?_
  obtain ⟨i, j, hl, hij, hi, hj⟩ := links_plant s hs
  obtain rfl := nodeId_injective (hl.target.symm.trans h)
  omega

/-- A badge node with the trees `g.2` of the award `g.1` can be read off the canvas `c`. -/
structure Planted.Reads (c : Canvas P) (p : Planted) (g : Award × List Formula) : Prop where
  badge : p.badge.payload = .badge g.1
  payloads : p.sprouts.map (·.node.payload) = payloadsOf g.2
  unfolds : c.Unfolds (c.incoming p.badge.id) g.2 (p.sprouts.map Sprout.edge)

theorem Planted.Reads.kind_sprout {p : Planted} {g : Award × List Formula} (h : p.Reads c g) :
    ∀ s ∈ p.sprouts, s.node.payload.kind? ≠ some .badge := by
  intro s hs
  have hpay : s.node.payload ∈ p.sprouts.map (·.node.payload) := List.mem_map.2 ⟨s, hs, rfl⟩
  rw [h.payloads] at hpay
  rcases s.node.payload.award?_cases with ⟨a, ha⟩ | ⟨-, hk⟩
  · rw [ha] at hpay
    cases award?_payloadsOf _ _ hpay
  · exact hk

theorem reads_plant
    (hin : ∀ m, k.node ≤ m → m < k.node + plantedSize gs →
      c.incoming (nodeId m) = feeding m ((plant col row k gs).flatMap Planted.sprouts))
    (hlook : ∀ s ∈ (plant col row k gs).flatMap Planted.sprouts, c.payload? s.node.id = some s.node.payload) :
    List.Forall₂ (Planted.Reads c) (plant col row k gs) gs := by
  induction gs generalizing row k with
  | nil => exact .nil
  | cons g gs ih =>
    rw [plantedSize_cons] at hin
    rw [plant, List.flatMap_cons] at hin hlook
    rw [plant]
    refine .cons ⟨rfl, payloads_sproutsOf .., ?_⟩ (ih (fun m hm hm' => ?_) fun s hs =>
      hlook s (List.mem_append_right _ hs))
    · have hnode := hin k.node (Nat.le_refl _) (by omega)
      rw [feeding_append, feeding_plant_eq_nil (.inl (by simp only [Counters.node_advance]; omega)),
        List.append_nil] at hnode
      rw [hnode]
      refine unfolds_sproutsOf (Nat.lt_succ_self _) (fun m hm hm' => ?_) fun s hs =>
        hlook s (List.mem_append_left _ hs)
      simp only at hm hm'
      rw [hin m (by omega) (by omega), feeding_append,
        feeding_plant_eq_nil (.inl (by simp only [Counters.node_advance]; omega)), List.append_nil]
    · simp only [Counters.node_advance] at hm hm'
      rw [hin m (by omega) (by omega), feeding_append,
        feeding_sproutsOf_eq_nil (Nat.lt_succ_self _) (by omega) (.inr (by simp only; omega)), List.nil_append]

end Plant

end BadgeRules
