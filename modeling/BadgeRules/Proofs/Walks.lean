import Mathlib.Data.List.Dedup
import Mathlib.Data.List.Induction
import Mathlib.Data.List.Perm.Subperm
import BadgeRules.Proofs.Unfolding

/-!
# Walks upstream

A walk follows edges from a node back to their sources, without coming to an id twice, through logic
nodes to a condition or a logic node (`Canvas.IsWalk`). It is given by the numbers of its edges, so that
two edges between the same nodes make two walks. A walk goes on by one edge at a time
(`isWalk_concat_iff`). Since it comes to less ids than there are, there is a list of all walks, each
before those that go on from it (`walksFrom`), which is sorted by the numbers.
-/

namespace BadgeRules

variable {P : Type}

namespace Canvas

/-- The edges with these numbers. -/
def route (c : Canvas P) (w : List Nat) : List Edge := w.filterMap (c.edges[·]?)

/-- The ids that the edges with these numbers come to, from `id` on. -/
def trail (c : Canvas P) (id : String) (w : List Nat) : List String := id :: (c.route w).map Edge.source

/-- Where the edges with these numbers end. -/
def tip (c : Canvas P) (id : String) (w : List Nat) : String := (c.trail id w).getLast (List.cons_ne_nil _ _)

/-- The edges with the numbers `w` lead from `id` upstream. -/
structure IsWalk (c : Canvas P) (id : String) (w : List Nat) : Prop where
  numbers : ∀ i ∈ w, i < c.edges.length
  nonempty : w ≠ []
  /-- The first edge leads to `id`, every other one to the source of the one before. -/
  linked : (c.route w).map Edge.target = (c.trail id w).dropLast
  distinct : (c.trail id w).Nodup
  inner : ∀ e ∈ (c.route w).dropLast, c.index.kindOf? e.source = some .logic
  last : ∀ e ∈ (c.route w).getLast?,
    c.index.kindOf? e.source = some .condition ∨ c.index.kindOf? e.source = some .logic

theorem isWalk_iff {c : Canvas P} {id : String} {w : List Nat} : c.IsWalk id w ↔
    (∀ i ∈ w, i < c.edges.length) ∧ w ≠ [] ∧ (c.route w).map Edge.target = (c.trail id w).dropLast ∧
      (c.trail id w).Nodup ∧ (∀ e ∈ (c.route w).dropLast, c.index.kindOf? e.source = some .logic) ∧
      ∀ e ∈ (c.route w).getLast?,
        c.index.kindOf? e.source = some .condition ∨ c.index.kindOf? e.source = some .logic :=
  ⟨fun ⟨h₁, h₂, h₃, h₄, h₅, h₆⟩ => ⟨h₁, h₂, h₃, h₄, h₅, h₆⟩,
    fun ⟨h₁, h₂, h₃, h₄, h₅, h₆⟩ => ⟨h₁, h₂, h₃, h₄, h₅, h₆⟩⟩

instance (c : Canvas P) (id : String) (w : List Nat) : Decidable (c.IsWalk id w) :=
  decidable_of_iff' _ isWalk_iff

/-- The walks that go on from `w` by one edge, in the order of the edges. -/
def extensions (c : Canvas P) (id : String) (w : List Nat) : List (List Nat) :=
  ((List.range c.edges.length).map (w ++ [·])).filter (c.IsWalk id ·)

/-- A walk may go on from here: from the start, or from a logic node. -/
def Extensible (c : Canvas P) (id : String) (w : List Nat) : Prop :=
  w = [] ∨ c.IsWalk id w ∧ c.index.kindOf? (c.tip id w) = some .logic

instance (c : Canvas P) (id : String) (w : List Nat) : Decidable (c.Extensible id w) :=
  inferInstanceAs (Decidable (_ ∨ _))

variable {c : Canvas P} {id : String} {w : List Nat}

/-! ### One more edge -/

section Concat

variable {i : Nat} {e : Edge}

theorem route_concat (h : c.edges[i]? = some e) : c.route (w ++ [i]) = c.route w ++ [e] := by
  simp [route, h]

theorem trail_concat (h : c.edges[i]? = some e) : c.trail id (w ++ [i]) = c.trail id w ++ [e.source] := by
  simp [trail, route_concat h]

theorem tip_concat (h : c.edges[i]? = some e) : c.tip id (w ++ [i]) = e.source := by
  simp [tip, trail_concat h]

theorem dropLast_trail (c : Canvas P) (id : String) (w : List Nat) :
    (c.trail id w).dropLast ++ [c.tip id w] = c.trail id w :=
  List.dropLast_append_getLast _

theorem length_route (h : ∀ i ∈ w, i < c.edges.length) : (c.route w).length = w.length := by
  induction w with
  | nil => rfl
  | cons i w ih =>
    obtain ⟨hi, hw⟩ := List.forall_mem_cons.1 h
    rw [route, List.filterMap_cons, List.getElem?_eq_getElem hi]
    exact congrArg Nat.succ (ih hw)

end Concat

namespace IsWalk

theorem exists_concat (h : c.IsWalk id w) : ∃ v i e, w = v ++ [i] ∧ c.edges[i]? = some e := by
  rcases w.eq_nil_or_concat' with rfl | ⟨v, i, rfl⟩
  · exact absurd rfl h.nonempty
  · exact ⟨v, i, _, rfl, List.getElem?_eq_getElem (h.numbers i (by simp))⟩

theorem kind_of_mem (h : c.IsWalk id w) {e : Edge} (he : e ∈ c.route w) :
    c.index.kindOf? e.source = some .condition ∨ c.index.kindOf? e.source = some .logic := by
  obtain ⟨v, i, e', rfl, hi⟩ := h.exists_concat
  have hinner := h.inner
  have hlast := h.last
  rw [route_concat hi] at he hinner hlast
  rcases List.mem_append.1 he with he | he
  · exact .inr (hinner e (by rwa [List.dropLast_concat]))
  · exact hlast e (by simpa using (List.mem_singleton.1 he).symm)

theorem source_mem (h : c.IsWalk id w) {e : Edge} (he : e ∈ c.route w) : e.source ∈ c.ids := by
  have hk := h.kind_of_mem he
  rw [kindOf?_index] at hk
  cases hn : c.node? e.source with
  | none => rw [hn] at hk; rcases hk with hk | hk <;> cases hk
  | some n => exact mem_ids_of_node? hn

theorem length_le (h : c.IsWalk id w) : w.length ≤ c.ids.dedup.length := by
  have hsub : (c.route w).map Edge.source ⊆ c.ids.dedup := by
    intro x hx
    obtain ⟨e, he, rfl⟩ := List.mem_map.1 hx
    exact List.mem_dedup.2 (h.source_mem he)
  have hlen := (List.subperm_of_subset (List.nodup_cons.1 h.distinct).2 hsub).length_le
  rwa [List.length_map, length_route h.numbers] at hlen

/-- A walk from an id that there is comes to less ids than there are. -/
theorem length_lt (h : c.IsWalk id w) (hid : id ∈ c.ids) : w.length < c.ids.dedup.length := by
  have hsub : c.trail id w ⊆ c.ids.dedup := by
    refine List.cons_subset.2 ⟨List.mem_dedup.2 hid, fun x hx => ?_⟩
    obtain ⟨e, he, rfl⟩ := List.mem_map.1 hx
    exact List.mem_dedup.2 (h.source_mem he)
  have hlen := (List.subperm_of_subset h.distinct hsub).length_le
  rwa [trail, List.length_cons, List.length_map, length_route h.numbers] at hlen

end IsWalk

/-- What a walk may go on from is linked, comes to no id twice and leads through logic nodes alone. -/
theorem extensible_iff : c.Extensible id w ↔ (∀ k ∈ w, k < c.edges.length) ∧
    (c.route w).map Edge.target = (c.trail id w).dropLast ∧ (c.trail id w).Nodup ∧
      ∀ e ∈ c.route w, c.index.kindOf? e.source = some .logic := by
  rcases w.eq_nil_or_concat' with rfl | ⟨v, j, rfl⟩
  · exact ⟨fun _ => ⟨nofun, rfl, List.nodup_singleton _, nofun⟩, fun _ => .inl rfl⟩
  constructor
  · rintro (hnil | ⟨h, htip⟩)
    · simp at hnil
    obtain ⟨e', hj⟩ : ∃ e, c.edges[j]? = some e := ⟨_, List.getElem?_eq_getElem (h.numbers j (by simp))⟩
    refine ⟨h.numbers, h.linked, h.distinct, fun e he => ?_⟩
    have hinner := h.inner
    rw [route_concat hj] at he hinner
    rcases List.mem_append.1 he with he | he
    · exact hinner e (by rwa [List.dropLast_concat])
    · rwa [List.mem_singleton.1 he, ← tip_concat hj]
  · rintro ⟨hnumbers, hlinked, hdistinct, hlogic⟩
    obtain ⟨e, hj⟩ : ∃ e, c.edges[j]? = some e := ⟨_, List.getElem?_eq_getElem (hnumbers j (by simp))⟩
    refine .inr ⟨⟨hnumbers, by simp, hlinked, hdistinct, ?_, ?_⟩, ?_⟩
    · exact fun e he => hlogic e (List.dropLast_subset _ he)
    · exact fun e he => .inr (hlogic e (List.mem_of_getLast? he))
    · rw [tip_concat hj]
      exact hlogic e (by rw [route_concat hj]; simp)

/-- A walk goes on by an edge that leads to its tip, from an id that it has not come to. -/
theorem isWalk_concat_iff {i : Nat} : c.IsWalk id (w ++ [i]) ↔ c.Extensible id w ∧
    ∃ e, c.edges[i]? = some e ∧ e.target = c.tip id w ∧ e.source ∉ c.trail id w ∧
      (c.index.kindOf? e.source = some .condition ∨ c.index.kindOf? e.source = some .logic) := by
  constructor
  · intro h
    obtain ⟨e, hi⟩ : ∃ e, c.edges[i]? = some e := ⟨_, List.getElem?_eq_getElem (h.numbers i (by simp))⟩
    obtain ⟨hnumbers, -, hlinked, hdistinct, hinner, hlast⟩ := isWalk_iff.1 h
    rw [trail_concat hi] at hlinked hdistinct
    rw [route_concat hi] at hlinked hinner hlast
    rw [List.map_append, List.dropLast_concat, ← dropLast_trail] at hlinked
    obtain ⟨hlinked, htip⟩ := List.append_inj' hlinked rfl
    have hfresh : e.source ∉ c.trail id w := fun hmem =>
      List.disjoint_of_nodup_append hdistinct hmem (List.mem_singleton_self _)
    refine ⟨extensible_iff.2 ⟨?_, hlinked, ?_, ?_⟩, e, hi, List.singleton_inj.1 htip, hfresh, hlast e (by simp)⟩
    · exact fun k hk => hnumbers k (List.mem_append_left _ hk)
    · exact hdistinct.sublist (List.sublist_append_left _ _)
    · rwa [List.dropLast_concat] at hinner
  · rintro ⟨hw, e, hi, htarget, hfresh, hkind⟩
    obtain ⟨hnumbers, hlinked, hdistinct, hlogic⟩ := extensible_iff.1 hw
    refine ⟨?_, by simp, ?_, ?_, ?_, ?_⟩
    · exact List.forall_mem_append.2 ⟨hnumbers, by simpa using (List.getElem?_eq_some_iff.1 hi).1⟩
    · rw [trail_concat hi, route_concat hi, List.map_append, List.dropLast_concat, hlinked,
        ← c.dropLast_trail id w, List.map_singleton, htarget, List.dropLast_concat]
    · rw [trail_concat hi, List.nodup_append_comm]
      exact List.nodup_cons.2 ⟨hfresh, hdistinct⟩
    · rwa [route_concat hi, List.dropLast_concat]
    · intro e' he
      rw [route_concat hi, List.getLast?_concat] at he
      rwa [← Option.some_inj.1 he]

theorem isWalk_concat_of_edge {i : Nat} {e : Edge} (hi : c.edges[i]? = some e) :
    c.IsWalk id (w ++ [i]) ↔ c.Extensible id w ∧ e.target = c.tip id w ∧ e.source ∉ c.trail id w ∧
      (c.index.kindOf? e.source = some .condition ∨ c.index.kindOf? e.source = some .logic) := by
  rw [isWalk_concat_iff]
  simp only [hi, Option.some_inj, exists_eq_left']

/-- What a walk went on from is a walk. -/
theorem IsWalk.of_append {u : List Nat} (h : c.IsWalk id (w ++ u)) (hw : w ≠ []) : c.IsWalk id w := by
  induction u using List.reverseRecOn with
  | nil => rwa [List.append_nil] at h
  | append_singleton u i ih =>
    rw [← List.append_assoc] at h
    rcases (isWalk_concat_iff.1 h).1 with hnil | ⟨h, -⟩
    · exact absurd (List.append_eq_nil_iff.1 hnil).1 hw
    · exact ih h

/-- What a walk has gone on from may be gone on from. -/
theorem Extensible.of_append {u : List Nat} (h : c.Extensible id (w ++ u)) : c.Extensible id w := by
  induction u using List.reverseRecOn with
  | nil => rwa [List.append_nil] at h
  | append_singleton u i ih =>
    rw [← List.append_assoc] at h
    exact ih (isWalk_concat_iff.1 (h.resolve_left (by simp)).1).1

theorem mem_extensions {v : List Nat} : v ∈ c.extensions id w ↔ ∃ i, v = w ++ [i] ∧ c.IsWalk id v := by
  simp only [extensions, List.mem_filter, List.mem_map, List.mem_range, decide_eq_true_eq]
  constructor
  · rintro ⟨⟨i, -, rfl⟩, h⟩; exact ⟨i, rfl, h⟩
  · rintro ⟨i, rfl, h⟩; exact ⟨⟨i, h.numbers i (by simp), rfl⟩, h⟩

theorem extensions_eq_nil (h : ¬ c.Extensible id w) : c.extensions id w = [] := by
  refine List.eq_nil_iff_forall_not_mem.2 fun v hv => h ?_
  obtain ⟨i, rfl, hv⟩ := mem_extensions.1 hv
  exact (isWalk_concat_iff.1 hv).1

/-! ### All walks in order -/

theorem lt_append {u : List Nat} (hu : u ≠ []) : w < w ++ u := by
  obtain ⟨i, u, rfl⟩ := List.exists_cons_of_ne_nil hu
  have h : w ++ [] < w ++ i :: u := List.append_left_lt (List.nil_lt_cons i u)
  rwa [List.append_nil] at h

theorem append_lt_append {i j : Nat} (h : i < j) (u v : List Nat) : w ++ i :: u < w ++ j :: v :=
  List.append_left_lt (List.cons_lt_cons_iff.2 (.inl h))

theorem pairwise_extensions (c : Canvas P) (id : String) (w : List Nat) :
    (c.extensions id w).Pairwise fun v v' => ∃ i j, v = w ++ [i] ∧ v' = w ++ [j] ∧ i < j := by
  refine List.Pairwise.filter _ (List.pairwise_map.2 ?_)
  exact List.pairwise_lt_range.imp fun {i j} h => ⟨i, j, rfl, rfl, h⟩

theorem length_extension {v : List Nat} (hv : v ∈ c.extensions id w) :
    c.ids.dedup.length - v.length < c.ids.dedup.length - w.length := by
  obtain ⟨i, rfl, h⟩ := mem_extensions.1 hv
  have hle := h.length_le
  rw [List.length_append, List.length_singleton] at hle ⊢
  omega

/-- The walks that go on from `w`, each before those that go on from it. -/
def walksFrom (c : Canvas P) (id : String) (w : List Nat) : List (List Nat) :=
  ((c.extensions id w).attach.map fun ⟨v, _⟩ => v :: c.walksFrom id v).flatten
termination_by c.ids.dedup.length - w.length
decreasing_by exact length_extension ‹_›

theorem walksFrom_eq (c : Canvas P) (id : String) (w : List Nat) :
    c.walksFrom id w = (c.extensions id w).flatMap fun v => v :: c.walksFrom id v := by
  rw [walksFrom, List.attach_map_val (f := fun v => v :: c.walksFrom id v), List.flatMap]

theorem mem_walksFrom_iff (c : Canvas P) (id : String) (w : List Nat) {v : List Nat} :
    v ∈ c.walksFrom id w ↔ c.IsWalk id v ∧ ∃ u, u ≠ [] ∧ v = w ++ u := by
  induction w using walksFrom.induct c id generalizing v with
  | case1 w ih =>
    rw [walksFrom_eq, List.mem_flatMap]
    constructor
    · rintro ⟨v', hv', hv⟩
      obtain ⟨i, rfl, h⟩ := mem_extensions.1 hv'
      rcases List.mem_cons.1 hv with rfl | hv
      · exact ⟨h, [i], by simp, rfl⟩
      · obtain ⟨hwalk, u, -, rfl⟩ := (ih _ hv').1 hv
        exact ⟨hwalk, i :: u, by simp, by simp⟩
    · rintro ⟨h, u, hu, rfl⟩
      obtain ⟨i, u, rfl⟩ := List.exists_cons_of_ne_nil hu
      rw [List.append_cons] at h ⊢
      have hv : w ++ [i] ∈ c.extensions id w := mem_extensions.2 ⟨i, rfl, h.of_append (by simp)⟩
      refine ⟨_, hv, List.mem_cons.2 ?_⟩
      by_cases hu : u = []
      · exact .inl (by rw [hu, List.append_nil])
      · exact .inr ((ih _ hv).2 ⟨h, u, hu, rfl⟩)

theorem mem_walksFrom_nil : w ∈ c.walksFrom id [] ↔ c.IsWalk id w :=
  (c.mem_walksFrom_iff id []).trans ⟨And.left, fun h => ⟨h, w, h.nonempty, rfl⟩⟩

theorem sorted_walksFrom (c : Canvas P) (id : String) (w : List Nat) :
    (c.walksFrom id w).Pairwise (· < ·) := by
  induction w using walksFrom.induct c id with
  | case1 w ih =>
    rw [walksFrom_eq, List.pairwise_flatMap]
    refine ⟨fun v hv => List.pairwise_cons.2 ⟨fun v' hv' => ?_, ih v hv⟩, ?_⟩
    · obtain ⟨-, u, hu, rfl⟩ := (c.mem_walksFrom_iff id v).1 hv'
      exact lt_append hu
    · refine (c.pairwise_extensions id w).imp fun {v v'} hlt => ?_
      obtain ⟨i, j, rfl, rfl, hij⟩ := hlt
      have hbelow : ∀ k, ∀ x ∈ (w ++ [k]) :: c.walksFrom id (w ++ [k]), ∃ u, x = w ++ k :: u := by
        intro k x hx
        rcases List.mem_cons.1 hx with rfl | hx
        · exact ⟨[], rfl⟩
        · obtain ⟨-, u, -, rfl⟩ := (c.mem_walksFrom_iff id _).1 hx
          exact ⟨u, by simp⟩
      intro x hx y hy
      obtain ⟨u, rfl⟩ := hbelow i x hx
      obtain ⟨v, rfl⟩ := hbelow j y hy
      exact append_lt_append hij u v

end Canvas

end BadgeRules
