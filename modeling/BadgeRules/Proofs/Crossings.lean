import Mathlib.Algebra.BigOperators.Group.List.Basic
import Mathlib.Data.List.Sort
import BadgeRules.Proofs.FreshForest
import BadgeRules.Proofs.Sites

/-!
# What becomes of every edge

Compiling comes to the edges that arrive at a badge, and at each place where a logic node stands in one of its
trees (`Canvas.crossings`). An edge that is come to has one fate: it places a node, or it is reported, or, from
a node of unknown kind, it is passed over in silence (`Canvas.fate`). Those that place nodes are the walks of
the trees (`paths_placed`), those that are reported make up the reports in order (`reports_eq`). So nothing is
lost in the count (`compile_accounts`).
-/

namespace BadgeRules
open Formula.subtrees

variable {P : Type} {c : Canvas P}

theorem Formula.length_subtreesOf (fs : List Formula) :
    (subtreesOf fs).length = (fs.map Formula.size).sum := by
  rw [← sizes_eq_sum]
  induction fs using Formula.forest_induction with
  | nil => rfl
  | test t fs ih =>
    rw [sizes_test, ← ih]
    exact Nat.add_comm _ _
  | gate op gs fs ihup ih =>
    simp only [subtreesOf, subtrees, List.length_append, List.length_cons, ihup, ih, sizes_gate]
    omega

/-- An edge that is come to: the walk that has led to its target, its number, and the edge itself. -/
structure Crossing where
  walk : List Nat
  number : Nat
  edge : Edge

/-- The walk with the edge. -/
def Crossing.path (x : Crossing) : List Nat := x.walk ++ [x.number]

/-- What becomes of an edge that is come to. -/
inductive Fate
  | placed
  | dropped (cause : DropCause)
  | ignored
deriving DecidableEq

namespace Canvas

/-- What becomes of an edge on a branch that has come through `xs`. -/
def fateAlong (c : Canvas P) (xs : List String) (e : Edge) : Fate :=
  match c.node? e.source with
  | none => .dropped .missing
  | some n =>
    if e.source ∈ xs then .dropped .cycle
    else
      match n.kind? with
      | some .condition => .placed
      | some .logic => .placed
      | some .badge => .dropped .badge
      | none => .ignored

def fate (c : Canvas P) (id : String) (x : Crossing) : Fate := c.fateAlong (c.trail id x.walk) x.edge

def report? (c : Canvas P) (id : String) (x : Crossing) : Option Event :=
  match c.fate id x with
  | .dropped cause => some (.dropped cause x.edge.source x.edge.target)
  | .placed => none
  | .ignored => none

/-- The edges that arrive at the end of `w`, in order. -/
def arrivals (c : Canvas P) (id : String) (w : List Nat) : List Crossing :=
  (c.edges.zipIdx.filter fun a => a.1.target == c.tip id w).map fun a => ⟨w, a.2, a.1⟩

variable {id : String} {w : List Nat} {x : Crossing}

theorem mem_arrivals : x ∈ c.arrivals id w ↔
    x.walk = w ∧ c.edges[x.number]? = some x.edge ∧ x.edge.target = c.tip id w := by
  obtain ⟨v, i, e⟩ := x
  simp only [arrivals, List.mem_map, List.mem_filter, List.mem_zipIdx_iff_getElem?, beq_iff_eq,
    Crossing.mk.injEq, Prod.exists]
  constructor
  · rintro ⟨e', i', ⟨he, ht⟩, rfl, rfl, rfl⟩
    exact ⟨rfl, he, ht⟩
  · rintro ⟨rfl, he, ht⟩
    exact ⟨e, i, ⟨he, ht⟩, rfl, rfl, rfl⟩

theorem incoming_eq_arrivals (c : Canvas P) (id : String) (w : List Nat) :
    c.incoming (c.tip id w) = (c.arrivals id w).map Crossing.edge := by
  rw [arrivals, List.map_map, incoming]
  conv_lhs => rw [← List.zipIdx_map_fst 0 c.edges, List.filter_map]
  rfl

theorem pairwise_arrivals (c : Canvas P) (id : String) (w : List Nat) :
    (c.arrivals id w).Pairwise fun x y => x.number < y.number := by
  have hnumbers : (c.edges.zipIdx.map Prod.snd).Pairwise (· < ·) := by
    rw [List.zipIdx_map_snd]
    exact List.pairwise_lt_range'
  exact List.pairwise_map.2 ((List.pairwise_map.1 hnumbers).filter _)

theorem Extensible.isWalk_path (h : c.Extensible id x.path) : c.IsWalk id x.path :=
  (h.resolve_left (by simp [Crossing.path])).1

theorem length_arrival (hx : x ∈ c.arrivals id w) (h : c.Extensible id x.path) :
    c.ids.dedup.length - x.path.length < c.ids.dedup.length - w.length := by
  have hle := h.isWalk_path.length_le
  rw [Crossing.path, (mem_arrivals.1 hx).1, List.length_append, List.length_singleton] at hle ⊢
  omega

/-- The edges that are come to from the end of `w` on, each before those upstream of it. -/
def crossings (c : Canvas P) (id : String) (w : List Nat) : List Crossing :=
  ((c.arrivals id w).attach.map fun ⟨x, _hx⟩ =>
    x :: if _h : c.Extensible id x.path then c.crossings id x.path else []).flatten
termination_by c.ids.dedup.length - w.length
decreasing_by exact length_arrival _hx _h

/-- What is come to upstream of an edge. -/
def beyond (c : Canvas P) (id : String) (x : Crossing) : List Crossing :=
  if c.Extensible id x.path then c.crossings id x.path else []

theorem crossings_eq (c : Canvas P) (id : String) (w : List Nat) :
    c.crossings id w = (c.arrivals id w).flatMap fun x => x :: c.beyond id x := by
  rw [crossings, List.flatMap]
  exact congrArg List.flatten (List.attach_map_val (f := fun x => x :: c.beyond id x))

/-! ### All edges that are come to, in order -/

theorem mem_beyond {y : Crossing} : y ∈ c.beyond id x ↔ c.Extensible id x.path ∧ y ∈ c.crossings id x.path := by
  unfold beyond
  split <;> simp [*]

/-- An edge is come to after each walk to its target from which the branch goes on. -/
theorem mem_crossings_iff (h : c.Extensible id w) : x ∈ c.crossings id w ↔
    (∃ u, x.walk = w ++ u) ∧ c.Extensible id x.walk ∧ c.edges[x.number]? = some x.edge ∧
      x.edge.target = c.tip id x.walk := by
  induction w using crossings.induct c id generalizing x with
  | case1 w ih =>
    rw [crossings_eq, List.mem_flatMap]
    constructor
    · rintro ⟨y, hy, hx⟩
      obtain ⟨rfl, he, ht⟩ := mem_arrivals.1 hy
      rcases List.mem_cons.1 hx with rfl | hx
      · exact ⟨⟨[], by simp⟩, h, he, ht⟩
      · obtain ⟨hy', hx⟩ := mem_beyond.1 hx
        obtain ⟨⟨u, hu⟩, hx⟩ := (ih y hy hy' hy').1 hx
        exact ⟨⟨y.number :: u, by simp [hu, Crossing.path]⟩, hx⟩
    · rintro ⟨⟨u, hu⟩, hx, he, ht⟩
      rcases u with _ | ⟨i, u⟩
      · rw [List.append_nil] at hu
        exact ⟨x, mem_arrivals.2 ⟨hu, he, hu ▸ ht⟩, List.mem_cons_self⟩
      · -- the first edge after `w` is come to from there, and `x` upstream of it
        rw [List.append_cons] at hu
        have hi : c.Extensible id (w ++ [i]) := (hu ▸ hx : c.Extensible id (w ++ [i] ++ u)).of_append
        obtain ⟨-, e', he', ht', -⟩ := isWalk_concat_iff.1 (hi.resolve_left (by simp)).1
        let y : Crossing := ⟨w, i, e'⟩
        have hy : y ∈ c.arrivals id w := mem_arrivals.2 ⟨rfl, he', ht'⟩
        exact ⟨y, hy, List.mem_cons_of_mem _ (mem_beyond.2 ⟨hi, (ih y hy hi hi).2 ⟨⟨u, hu⟩, hx, he, ht⟩⟩)⟩

theorem mem_crossings_nil : x ∈ c.crossings id [] ↔ c.Extensible id x.walk ∧
    c.edges[x.number]? = some x.edge ∧ x.edge.target = c.tip id x.walk :=
  (mem_crossings_iff (.inl rfl)).trans (and_iff_right ⟨x.walk, rfl⟩)

theorem sorted_crossings (h : c.Extensible id w) :
    (c.crossings id w).Pairwise fun x y => x.path < y.path := by
  induction w using crossings.induct c id with
  | case1 w ih =>
    rw [crossings_eq, List.pairwise_flatMap]
    have hbeyond : ∀ x ∈ c.arrivals id w, ∀ y ∈ c.beyond id x, ∃ u, y.path = x.path ++ u ∧ u ≠ [] := by
      intro x _ y hy
      obtain ⟨hx, hy⟩ := mem_beyond.1 hy
      obtain ⟨⟨u, hu⟩, -⟩ := (mem_crossings_iff hx).1 hy
      exact ⟨u ++ [y.number], by simp [Crossing.path, hu], by simp⟩
    refine ⟨fun x hx => List.pairwise_cons.2 ⟨fun y hy => ?_, ?_⟩, ?_⟩
    · obtain ⟨u, hu, hne⟩ := hbeyond x hx y hy
      rw [hu]
      exact lt_append hne
    · unfold beyond
      split
      · exact ih x hx ‹_› ‹_›
      · exact .nil
    · refine (c.pairwise_arrivals id w).imp_of_mem fun {x y} hx hy hlt => ?_
      have hbelow : ∀ z ∈ c.arrivals id w, ∀ a ∈ z :: c.beyond id z, ∃ u, a.path = w ++ z.number :: u := by
        intro z hz a ha
        have hw : z.path = w ++ [z.number] := by rw [Crossing.path, (mem_arrivals.1 hz).1]
        rcases List.mem_cons.1 ha with rfl | ha
        · exact ⟨[], hw⟩
        · obtain ⟨u, hu, -⟩ := hbeyond z hz a ha
          exact ⟨u, by rw [hu, hw, List.append_assoc]; rfl⟩
      intro a ha b hb
      obtain ⟨u, hu⟩ := hbelow x hx a ha
      obtain ⟨v, hv⟩ := hbelow y hy b hb
      rw [hu, hv]
      exact append_lt_append hlt u v

/-! ### Those that place a node -/

section Edge

variable (hw : c.Extensible id x.walk) (he : c.edges[x.number]? = some x.edge)
  (ht : x.edge.target = c.tip id x.walk)
include hw he ht

theorem isWalk_path_iff : c.IsWalk id x.path ↔ x.edge.source ∉ c.trail id x.walk ∧
    (c.index.kindOf? x.edge.source = some .condition ∨ c.index.kindOf? x.edge.source = some .logic) := by
  rw [Crossing.path, isWalk_concat_of_edge he]
  simp only [hw, ht, true_and]

theorem extensible_path_iff : c.Extensible id x.path ↔
    x.edge.source ∉ c.trail id x.walk ∧ c.index.kindOf? x.edge.source = some .logic := by
  have hne : x.path ≠ [] := by simp [Crossing.path]
  have htip : c.tip id x.path = x.edge.source := tip_concat he
  rw [Extensible, or_iff_right hne, isWalk_path_iff hw he ht, htip]
  tauto

theorem fate_eq_placed_iff : c.fate id x = .placed ↔ c.IsWalk id x.path := by
  rw [isWalk_path_iff hw he ht, kindOf?_index, fate, fateAlong]
  rcases c.node? x.edge.source with _ | n
  · simp
  · by_cases hx : x.edge.source ∈ c.trail id x.walk
    · simp [hx]
    · rcases hk : n.kind? with _ | _ | _ | _ <;> simp [hx, hk]

end Edge

/-- The edges that place nodes are the ends of the walks. -/
theorem paths_placed (c : Canvas P) (id : String) :
    ((c.crossings id []).filter (c.fate id · = .placed)).map Crossing.path = c.walksFrom id [] := by
  have hsorted : (c.crossings id []).Pairwise fun x y => x.path < y.path := sorted_crossings (.inl rfl)
  refine (List.pairwise_map.2 (hsorted.filter (c.fate id · = .placed))).eq_of_mem_iff (c.sorted_walksFrom id []) fun w => ?_
  simp only [List.mem_map, List.mem_filter, decide_eq_true_eq, mem_walksFrom_nil, mem_crossings_nil]
  constructor
  · rintro ⟨x, ⟨⟨hw, he, ht⟩, hx⟩, rfl⟩
    exact (fate_eq_placed_iff hw he ht).1 hx
  · intro h
    obtain ⟨v, i, e, rfl, he⟩ := h.exists_concat
    obtain ⟨hw, ht, -⟩ := (isWalk_concat_of_edge he).1 h
    exact ⟨⟨v, i, e⟩, ⟨⟨hw, he, ht⟩, (fate_eq_placed_iff hw he ht).2 h⟩, rfl⟩

/-! ### Those that are reported -/

/-- The reports of what arrives at `x` when a branch has come through `xs`. -/
def reportsAlong (c : Canvas P) (xs : List String) (x : String) : List Event :=
  ((c.incoming x).map (c.index.branch (c.unused xs))).flatMap Branch.events

theorem reports_eq_reportsAlong (c : Canvas P) (id : String) : c.reports id = c.reportsAlong [id] id := by
  rw [reports, branches, reportsAlong, index_incoming, without_ids]

/-- Following an edge reports what becomes of it, and then what becomes of those upstream. -/
theorem events_branch (hw : c.Extensible id x.walk) (he : c.edges[x.number]? = some x.edge)
    (ht : x.edge.target = c.tip id x.walk)
    (hup : c.Extensible id x.path →
      c.reportsAlong (c.trail id x.path) (c.tip id x.path) = (c.crossings id x.path).filterMap (c.report? id)) :
    (c.index.branch (c.unused (c.trail id x.walk)) x.edge).events =
      (x :: c.beyond id x).filterMap (c.report? id) := by
  have hpath := extensible_path_iff hw he ht
  have htrail : c.trail id x.path = c.trail id x.walk ++ [x.edge.source] := trail_concat he
  have htip : c.tip id x.path = x.edge.source := tip_concat he
  rw [kindOf?_index] at hpath
  rw [List.filterMap_cons, beyond, report?, fate, fateAlong]
  rcases hn : c.node? x.edge.source with _ | n
  · rw [branch_missing hn, if_neg (by simp [hpath, hn])]
    rfl
  by_cases hx : x.edge.source ∈ c.trail id x.walk
  · rw [branch_cycle hn fun h => (mem_unused.1 h).2 hx, if_neg (by simp [hpath, hx])]
    simp [hx, Branch.events]
  · have hf : x.edge.source ∈ c.unused (c.trail id x.walk) := mem_unused.2 ⟨mem_ids_of_node? hn, hx⟩
    rw [branch_fresh hn hf, without_unused]
    have hkind : n.kind? = n.payload.kind? := rfl
    rw [hn, Option.bind_some, hkind] at hpath
    simp only [if_neg hx, hkind]
    rcases hp : n.payload with t | op | a | _
    · rw [if_neg (by simp [hpath, hp, Payload.kind?])]
      rfl
    · have hgo : c.Extensible id x.path := hpath.2 ⟨hx, by rw [hp]; rfl⟩
      rw [if_pos hgo, ← hup hgo, htrail, htip]
      simp only [Branch.events, Branch.eventsOf_eq_flatMap, Payload.kind?, reportsAlong]
    · rw [if_neg (by simp [hpath, hp, Payload.kind?])]
      rfl
    · rw [if_neg (by simp [hpath, hp, Payload.kind?])]
      rfl

theorem reportsAlong_eq (h : c.Extensible id w) : c.reportsAlong (c.trail id w) (c.tip id w) =
    (c.crossings id w).filterMap (c.report? id) := by
  induction w using crossings.induct c id with
  | case1 w ih =>
    rw [reportsAlong, incoming_eq_arrivals, List.map_map, List.flatMap_map, crossings_eq,
      List.filterMap_flatMap]
    refine List.flatMap_congr fun x hx => ?_
    obtain ⟨rfl, he, ht⟩ := mem_arrivals.1 hx
    exact events_branch h he ht fun hx' => ih x hx hx' hx'

/-- The reports tell what becomes of the edges that are dropped, in the order in which they are come to. -/
theorem reports_eq (c : Canvas P) (id : String) :
    c.reports id = (c.crossings id []).filterMap (c.report? id) := by
  rw [reports_eq_reportsAlong]
  exact reportsAlong_eq (.inl rfl)

/-! ### Nothing is lost in the count -/

theorem length_fates (c : Canvas P) (id : String) (xs : List Crossing) : xs.length =
    (xs.filter (c.fate id · = .placed)).length + (xs.filterMap (c.report? id)).length +
      (xs.filter (c.fate id · = .ignored)).length := by
  induction xs with
  | nil => rfl
  | cons x xs ih =>
    rw [List.length_cons, ih]
    cases hx : c.fate id x <;> simp [report?, hx] <;> omega

/-- The walks to a badge and to the places of logic nodes, where edges are come to. -/
def feeders (c : Canvas P) (id : String) : List (List Nat) :=
  ([] :: c.walksFrom id []).filter (c.Extensible id ·)

theorem mem_feeders : w ∈ c.feeders id ↔ c.Extensible id w := by
  simp only [feeders, List.mem_filter, List.mem_cons, mem_walksFrom_nil, decide_eq_true_eq]
  exact and_iff_right_of_imp fun h => h.imp_right And.left

theorem ne_of_walk_lt {v w : List Nat} (h : v < w) : v ≠ w := fun heq => List.lt_irrefl _ (heq ▸ h)

theorem nodup_feeders (c : Canvas P) (id : String) : (c.feeders id).Nodup := by
  have hsorted : ([] :: c.walksFrom id []).Pairwise (· < ·) :=
    List.pairwise_cons.2 ⟨fun w hw => lt_append (mem_walksFrom_nil.1 hw).nonempty, c.sorted_walksFrom id []⟩
  exact (hsorted.filter _).imp ne_of_walk_lt

theorem crossings_perm (c : Canvas P) (id : String) :
    (c.crossings id []).Perm ((c.feeders id).flatMap (c.arrivals id)) := by
  have hcrossings : (c.crossings id []).Nodup :=
    (sorted_crossings (.inl rfl)).imp fun h heq => ne_of_walk_lt h (congrArg Crossing.path heq)
  have harrivals : ((c.feeders id).flatMap (c.arrivals id)).Nodup := by
    refine List.nodup_flatMap.2 ⟨fun w _ => ?_, (c.nodup_feeders id).imp fun {v w} hne x hv hw => hne ?_⟩
    · exact (c.pairwise_arrivals id w).imp fun h heq => h.ne (congrArg Crossing.number heq)
    · rw [← (mem_arrivals.1 hv).1, (mem_arrivals.1 hw).1]
  refine (List.perm_ext_iff_of_nodup hcrossings harrivals).2 fun x => ?_
  simp only [List.mem_flatMap, mem_feeders, mem_arrivals, mem_crossings_nil]
  constructor
  · rintro ⟨hw, hx⟩
    exact ⟨_, hw, rfl, hx⟩
  · rintro ⟨w, hw, rfl, hx⟩
    exact ⟨hw, hx⟩

theorem length_crossings (c : Canvas P) (id : String) : (c.crossings id []).length =
    ((c.feeders id).map fun w => (c.incoming (c.tip id w)).length).sum := by
  rw [(c.crossings_perm id).length_eq, List.length_flatMap]
  simp only [incoming_eq_arrivals, List.length_map]

theorem count_crossings (hid : id ∈ c.ids) : (c.crossings id []).length =
    ((c.roots id).map Formula.size).sum + (c.reports id).length +
      ((c.crossings id []).filter (c.fate id · = .ignored)).length := by
  have hplaced := congrArg List.length (c.paths_placed id)
  have hnodes := congrArg List.length (traced_roots hid).nodes
  rw [List.length_map] at hplaced hnodes
  rw [← Formula.length_subtreesOf, hnodes, ← hplaced, reports_eq]
  exact c.length_fates id _

/-- As many edges arrive at the sites of badges and logic nodes as are come to. -/
theorem sum_sites (c : Canvas P) :
    ((c.sites.filter fun s => c.Extensible s.badge.id s.walk).map fun s =>
        (c.incoming (c.tip s.badge.id s.walk)).length).sum =
      ((c.ofKind .badge).map fun b => (c.crossings b.id []).length).sum := by
  simp only [length_crossings, feeders]
  rw [sites]
  induction c.ofKind .badge with
  | nil => rfl
  | cons b bs ih =>
    rw [List.flatMap_cons, List.filter_append, List.map_append, List.sum_append, ih, List.map_cons,
      List.sum_cons, ← List.map_cons (f := Site.mk b), List.filter_map, List.map_map]
    rfl

theorem level_of_dropped (id name : String) (description : Option String) :
    ∀ e ∈ (c.compile id name description).dropped, e.level = .warn := by
  intro e he
  rw [dropped_badges] at he
  obtain ⟨b, -, he⟩ := List.mem_flatMap.1 he
  rw [reports_eq] at he
  obtain ⟨x, -, hx⟩ := List.mem_filterMap.1 he
  unfold report? at hx
  split at hx
  · rw [← Option.some_inj.1 hx]
    rfl
  · cases hx
  · cases hx

/-- The warnings of a compilation are its reports. -/
theorem warnings_compile (c : Canvas P) (id name : String) (description : Option String) :
    (c.compile id name description).events.filter (·.level = .warn) =
      (c.compile id name description).dropped := by
  rw [Compiled.events, List.filter_append, List.filter_eq_self.2 fun e he => by
    simpa using level_of_dropped id name description e he]
  exact List.append_nil _

/-- The edges `xs` are those that are come to upstream of `id`, where the trees `fs` arrive. -/
structure Accounted (c : Canvas P) (id : String) (fs : List Formula) (xs : List Crossing) : Prop where
  /-- An edge is come to after each walk to its target, to `id` itself or to a place of a logic node. -/
  mem_iff : ∀ x, x ∈ xs ↔ c.Extensible id x.walk ∧ c.edges[x.number]? = some x.edge ∧
    x.edge.target = c.tip id x.walk
  /-- In pre-order. -/
  sorted : xs.Pairwise fun x y => x.path < y.path
  /-- Those that place nodes are the walks to the nodes of the trees. -/
  traced : c.Traced id fs ((xs.filter (c.fate id · = .placed)).map Crossing.path) (c.treeAt id)

end Canvas

/-- Each of the `crossings` of a badge is `Accounted` for: it places one node, or gives one report, or is passed over.
The warnings of `compile` are the reports in this order, and the edges that arrive at `sites` are counted by the
nodes of all trees, the warnings, and the crossings with the fate `.ignored`. -/
theorem compile_accounts (c : Canvas P) (id name : String) (description : Option String) :
    let r := c.compile id name description
    let warnings := r.events.filter (·.level = .warn)
    List.Forall₂ (fun s b => c.Accounted b.id s.roots (c.crossings b.id [])) r.rule.slots (c.ofKind .badge) ∧
      warnings = (c.ofKind .badge).flatMap (fun b => (c.crossings b.id []).filterMap (c.report? b.id)) ∧
      ((c.sites.filter fun s => c.Extensible s.badge.id s.walk).map fun s =>
          (c.incoming (c.tip s.badge.id s.walk)).length).sum =
        (r.rule.slots.map fun s => (s.roots.map Formula.size).sum).sum + warnings.length +
          ((c.ofKind .badge).flatMap fun b =>
            (c.crossings b.id []).filter (c.fate b.id · = .ignored)).length := by
  intro r warnings
  have hids : ∀ b ∈ c.ofKind .badge, b.id ∈ c.ids := fun b hb => Canvas.mem_ids_of_mem_ofKind hb
  have hslots : r.rule.slots = (c.ofKind .badge).map fun b => Slot.ofRoots (c.roots b.id) :=
    c.slots_badges id name description
  have hwarnings : warnings = (c.ofKind .badge).flatMap fun b => c.reports b.id :=
    (c.warnings_compile id name description).trans (c.dropped_badges id name description)
  refine ⟨?slots, ?order, ?count⟩
  case slots =>
    rw [hslots, List.forall₂_map_left_iff, List.forall₂_same]
    intro b hb
    rw [Slot.roots_ofRoots]
    refine ⟨fun x => Canvas.mem_crossings_nil, Canvas.sorted_crossings (.inl rfl), ?_⟩
    rw [Canvas.paths_placed]
    exact Canvas.traced_roots (hids b hb)
  case order =>
    rw [hwarnings]
    exact List.flatMap_congr fun b _ => c.reports_eq b.id
  case count =>
    rw [c.sum_sites, List.map_congr_left fun b hb => Canvas.count_crossings (hids b hb), List.sum_map_add,
      List.sum_map_add, hslots, hwarnings, List.map_map, List.length_flatMap, List.length_flatMap]
    simp only [Function.comp_def, Slot.roots_ofRoots]

end BadgeRules
