import BadgeRules.Proofs.Rereading
import BadgeRules.Proofs.Tracing
import BadgeRules.Rule.Expand

/-!
# How deep documents of rules are nested

On the way to a leaf every logic node adds two levels to the document, an object and the list in it, and
the leaf one or two more. So the levels of a rule's document are bounded by the levels of its trees from
both sides (`Rule.depth_toJson_le`, `Rule.lt_depth_toJson`). The trees of a compiled rule have a level for
each edge of the longest walk (`Canvas.depth_compile_le_iff`).
-/

namespace BadgeRules
open Formula.depth

/-! ### Leaves -/

theorem Scalar.depth_toJson (s : Scalar) : s.toJson.depth = 0 := by
  cases s with
  | number x =>
    rw [toJson]
    split
    · rfl
    · exact depth_ofFloat x
  | bool b => rfl
  | text t => rfl
  | null => rfl

theorem Operand.depth_toJson_le (o : Operand) : o.toJson.depth ≤ 1 := by
  cases o with
  | single s => rw [toJson, s.depth_toJson]; exact Nat.zero_le 1
  | list items =>
    rw [toJson, Json.depth_array_le_iff, List.forall_mem_map]
    exact fun s _ => Nat.le_of_eq s.depth_toJson

namespace Formula

theorem depth_test_le (t : Comparison) : (toJson (.test t)).depth ≤ 2 := by
  have hoperand := t.operand.depth_toJson_le
  rw [toJson, Json.depth_record_le_iff]
  simpa [Comparison.members, Operator.toJson] using hoperand

/-! ### Trees -/

theorem depth_toJson_le (fs : List Formula) : ∀ f ∈ fs, f.toJson.depth ≤ 2 * depths fs := by
  induction fs using forest_induction with
  | nil => exact fun _ hf => (List.not_mem_nil hf).elim
  | test t fs ih =>
    have ht := depth_test_le t
    simp only [depths, depth]
    refine List.forall_mem_cons.2 ⟨by omega, fun f hf => ?_⟩
    have := ih f hf
    omega
  | gate op gs fs ihg ih =>
    have hg : (toJson (.gate op gs)).depth ≤ 2 * depths gs + 2 := depth_gate_le_iff.2 ihg
    simp only [depths, depth]
    refine List.forall_mem_cons.2 ⟨by omega, fun f hf => ?_⟩
    have := ih f hf
    omega

theorem depths_le (fs : List Formula) {n : Nat} (h : ∀ f ∈ fs, f.toJson.depth ≤ n) : 2 * depths fs ≤ n + 1 := by
  induction fs using forest_induction generalizing n with
  | nil => exact Nat.zero_le _
  | test t fs ih =>
    obtain ⟨ht, hfs⟩ := List.forall_mem_cons.1 h
    have hrest := ih hfs
    cases n with
    | zero => simp [toJson, Json.record, Json.depth] at ht
    | succ n => simp only [depths, depth]; omega
  | gate op gs fs ihg ih =>
    obtain ⟨hg, hfs⟩ := List.forall_mem_cons.1 h
    have hrest := ih hfs
    obtain ⟨n, rfl⟩ := Nat.exists_eq_add_of_le' ((two_le_depth_gate op gs).trans hg)
    have hup := ihg (depth_gate_le_iff.1 hg)
    simp only [depths, depth]
    omega

end Formula

/-! ### Rules -/

theorem Slot.depth_toJson_le {s : Slot} {n : Nat} (h : ∀ f ∈ s.roots, f.toJson.depth ≤ n) :
    s.toJson.depth ≤ n + 1 := by
  cases s with
  | single f => exact Nat.le_succ_of_le (h f (List.mem_singleton_self f))
  | many fs =>
    rw [toJson, Formula.toJsons_eq_map, Json.depth_array_le_iff, List.forall_mem_map]
    exact h

theorem Slot.depth_roots_le {s : Slot} {n : Nat} (h : s.toJson.depth ≤ n) : ∀ f ∈ s.roots, f.toJson.depth ≤ n := by
  cases s with
  | single f => exact List.forall_mem_singleton.2 h
  | many fs =>
    cases n with
    | zero => simp [toJson, Json.depth] at h
    | succ n =>
      rw [toJson, Formula.toJsons_eq_map, Json.depth_array_le_iff, List.forall_mem_map] at h
      exact fun f hf => Nat.le_succ_of_le (h f hf)

theorem forall_mem_optional {key : String} {value : Option Json} {p : String × Json → Prop} :
    (∀ m ∈ Json.optional key value, p m) ↔ ∀ j ∈ value, p (key, j) := by
  cases value <;> simp [Json.optional]

theorem Award.depth_toAction_le (a : Award) : a.toAction.depth ≤ 1 := by
  rw [toAction, Json.depth_record_le_iff]
  cases h : a.name <;> simp [members, Json.optional, h]

theorem Point.depth_toJson_le (p : Position) : p.toJson.depth ≤ 1 := by
  rw [toJson, Json.depth_record_le_iff]
  simp [depth_ofFloat]

theorem depth_layoutToJson_le (l : List (Placement Position)) : (layoutToJson l).depth ≤ 4 := by
  rw [layoutToJson, Json.depth_record_le_iff, List.forall_mem_singleton, Json.depth_array_le_iff,
    List.forall_mem_map]
  intro p _
  rw [Placement.toJson, Json.depth_record_le_iff]
  simp [p.position.depth_toJson_le]

namespace Rule

/-- All but the slots fits into five levels. -/
theorem depth_toJson_le_iff {r : Rule Position} {n : Nat} (hn : 3 ≤ n) :
    r.toJson.depth ≤ n + 2 ↔ ∀ s ∈ r.slots, s.toJson.depth ≤ n := by
  have hawards : (Json.array (r.awards.map Award.toAction)).depth ≤ n + 1 := by
    rw [Json.depth_array_le_iff, List.forall_mem_map]
    exact fun a _ => a.depth_toAction_le.trans (by omega)
  have hdescription : ∀ j ∈ r.description.map Json.text, j.depth ≤ n + 1 := by simp
  have hlayout : ∀ j ∈ r.layout.map layoutToJson, j.depth ≤ n + 1 := by
    intro j hj
    obtain ⟨l, -, rfl⟩ := Option.map_eq_some_iff.1 hj
    exact (depth_layoutToJson_le l).trans (by omega)
  have hslots : (Json.array (r.slots.map Slot.toJson)).depth ≤ n + 1 ↔ ∀ s ∈ r.slots, s.toJson.depth ≤ n := by
    rw [Json.depth_array_le_iff, List.forall_mem_map]
  rw [toJson, Json.depth_record_le_iff, ← hslots]
  simp only [List.forall_mem_append, List.forall_mem_cons, forall_mem_optional]
  constructor
  · exact fun h => h.1.2.1
  · exact fun h => ⟨⟨⟨⟨Nat.zero_le _, Nat.zero_le _, nofun⟩, hdescription⟩, h, hawards, nofun⟩, hlayout⟩

theorem depth_toJson_le (r : Rule Position) : r.toJson.depth ≤ max 5 (2 * r.depth + 3) := by
  have hmax : max 5 (2 * r.depth + 3) = max 3 (2 * r.depth + 1) + 2 := by omega
  rw [hmax, depth_toJson_le_iff (Nat.le_max_left _ _)]
  refine fun s hs => (Slot.depth_toJson_le fun f hf => ?_).trans (Nat.le_max_right _ _)
  exact Formula.depth_toJson_le _ f (List.mem_flatMap.2 ⟨s, hs, hf⟩)

/-- The list of slots and the rule around it are two levels more. -/
theorem lt_depth_toJson (r : Rule Position) : 2 * r.depth < r.toJson.depth := by
  have hrule : ∀ n, r.toJson.depth ≤ n → 2 * r.depth < n := by
    intro n hn
    cases n with
    | zero => simp [toJson, Json.record, Json.depth] at hn
    | succ n =>
      rw [toJson, Json.depth_record_le_iff] at hn
      have hslots : (Json.array (r.slots.map Slot.toJson)).depth ≤ n := hn ("conditions", _) (by simp)
      cases n with
      | zero => simp [Json.depth] at hslots
      | succ n =>
        rw [Json.depth_array_le_iff, List.forall_mem_map] at hslots
        have hroots : ∀ f ∈ r.slots.flatMap Slot.roots, f.toJson.depth ≤ n := by
          intro f hf
          obtain ⟨s, hs, hf⟩ := List.mem_flatMap.1 hf
          exact Slot.depth_roots_le (hslots s hs) f hf
        have := Formula.depths_le _ hroots
        rw [depth]
        omega
  exact hrule _ (Nat.le_refl _)

end Rule

/-! ### Compiled rules -/

namespace Canvas

variable {P : Type} {c : Canvas P}

/-- Below the end of a walk there is a level for each further edge. -/
theorem depths_extensions_le_iff (c : Canvas P) (id : String) (w : List Nat) {n : Nat} :
    depths ((c.extensions id w).map (c.treeAt id)) ≤ n ↔ ∀ v ∈ c.walksFrom id w, v.length ≤ w.length + n := by
  induction w using walksFrom.induct c id generalizing n with
  | case1 w ih =>
    rw [Formula.depths_le_iff, List.forall_mem_map, walksFrom_eq]
    simp only [List.forall_mem_flatMap, List.forall_mem_cons]
    refine forall₂_congr fun v hv => ?_
    obtain ⟨i, hi, h⟩ := mem_extensions.1 hv
    have hlen : v.length = w.length + 1 := by rw [hi, List.length_append, List.length_singleton]
    rw [Formula.depth_eq, h.operands_treeAt, hlen]
    cases n with
    | zero => omega
    | succ n =>
      rw [Nat.add_comm 1, Nat.add_le_add_iff_right, ih v hv, hlen, Nat.add_assoc, Nat.add_comm 1]
      exact (and_iff_right (by omega)).symm

theorem depths_roots_le_iff {id : String} {n : Nat} :
    depths (c.roots id) ≤ n ↔ ∀ w, c.IsWalk id w → w.length ≤ n := by
  rw [roots_eq_treeAt, depths_extensions_le_iff]
  simp only [mem_walksFrom_nil, List.length_nil, Nat.zero_add]

/-- A compiled rule has as many levels as the longest walk upstream from a badge has edges. -/
theorem depth_compile_le_iff {c : Canvas Position} {id name : String} {description : Option String} {n : Nat} :
    (c.compile id name description).rule.depth ≤ n ↔
      ∀ b ∈ c.ofKind .badge, ∀ w, c.IsWalk b.id w → w.length ≤ n := by
  have hslots : (c.compile id name description).rule.slots.flatMap Slot.roots =
      ((c.ofKind .badge).map fun b => c.roots b.id).flatten :=
    congrArg List.flatten (c.roots_badges id name description)
  rw [Rule.depth, hslots, Formula.depths_le_iff]
  simp only [List.forall_mem_flatten, List.forall_mem_map, ← Formula.depths_le_iff, depths_roots_le_iff]

end Canvas

end BadgeRules
