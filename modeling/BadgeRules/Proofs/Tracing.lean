import BadgeRules.Proofs.Walks

/-!
# Compiling follows walks

The trees of a compiled canvas, whatever edges it has, are made of walks: a tree stands at the end of
each walk upstream from a badge, and its operands at the ends of the walks that go on by one edge
(`Canvas.Traced`). That the ids on a walk are distinct bounds the depth.
-/

namespace BadgeRules

variable {P : Type}

namespace Formula

/-- What the node at the root stands for. -/
def payload : Formula → Payload
  | .test t => .condition t
  | .gate op _ => .logic op

def operands : Formula → List Formula
  | .test _ => []
  | .gate _ fs => fs

/-- The trees at the nodes of a tree, in pre-order. -/
def subtrees : Formula → List Formula
  | .test t => [.test t]
  | .gate op fs => .gate op fs :: subtreesOf fs
where
  subtreesOf : List Formula → List Formula
    | [] => []
    | f :: fs => f.subtrees ++ subtreesOf fs

open subtrees

theorem subtrees_eq (f : Formula) : f.subtrees = f :: subtreesOf f.operands := by cases f <;> rfl

theorem subtreesOf_eq_flatMap (fs : List Formula) : subtreesOf fs = fs.flatMap subtrees := by
  induction fs with
  | nil => rfl
  | cons f fs ih => rw [subtreesOf, ih, List.flatMap_cons]

theorem depth_eq (f : Formula) : f.depth = 1 + depth.depths f.operands := by cases f <;> rfl

theorem depths_le_iff {fs : List Formula} {k : Nat} : depth.depths fs ≤ k ↔ ∀ f ∈ fs, f.depth ≤ k := by
  induction fs with
  | nil => simp [depth.depths]
  | cons f fs ih => rw [depth.depths, Nat.max_le, ih, List.forall_mem_cons]

end Formula

open Formula.subtrees

theorem filterMap_eq_range {α β : Type} (f : α → Option β) (l : List α) :
    l.filterMap f = (List.range l.length).filterMap fun i => l[i]?.bind f := by
  induction l with
  | nil => rfl
  | cons a l ih =>
    rw [List.length_cons, List.range_succ_eq_map, List.filterMap_cons, List.filterMap_cons,
      List.filterMap_map, ih]
    rfl

namespace Canvas

variable {c : Canvas P} {id : String} {w : List Nat}

/-! ### Branches along a trail -/

/-- The ids of nodes that are not among `xs`. -/
def unused (c : Canvas P) (xs : List String) : List String := c.ids.filter (· ∉ xs)

theorem mem_unused {xs : List String} {x : String} : x ∈ c.unused xs ↔ x ∈ c.ids ∧ x ∉ xs := by
  simp [unused]

theorem without_ids (c : Canvas P) (x : String) : without x c.ids = c.unused [x] := by
  simp [without, unused]

theorem without_unused (c : Canvas P) (xs : List String) (x : String) :
    without x (c.unused xs) = c.unused (xs ++ [x]) := by
  simp [without, unused, List.filter_filter, and_comm]

/-- The trees that arrive at `x` when a branch has come through `xs`. -/
def rootsAlong (c : Canvas P) (xs : List String) (x : String) : List Formula :=
  ((c.incoming x).map (c.index.branch (c.unused xs))).filterMap Branch.formula?

/-- The tree at a condition or logic node `x` when a branch has come through `xs`. -/
def treeAlong (c : Canvas P) (xs : List String) (x : String) : Formula :=
  match c.payload? x with
  | some (.condition t) => .test t
  | some (.logic op) => .gate op (c.rootsAlong xs x)
  | _ => default

theorem roots_eq_rootsAlong (c : Canvas P) (id : String) : c.roots id = c.rootsAlong [id] id := by
  rw [roots, branches, rootsAlong, index_incoming, without_ids]

/-- An edge is followed to a condition or a logic node that the branch has not come through. -/
theorem formula?_branch (c : Canvas P) (xs : List String) (e : Edge) :
    (c.index.branch (c.unused xs) e).formula? =
      if e.source ∉ xs ∧ (c.index.kindOf? e.source = some .condition ∨ c.index.kindOf? e.source = some .logic)
      then some (c.treeAlong (xs ++ [e.source]) e.source) else none := by
  rw [kindOf?_index]
  cases hn : c.node? e.source with
  | none => rw [branch_missing hn]; simp [Branch.formula?]
  | some n =>
    by_cases hx : e.source ∈ xs
    · rw [branch_cycle hn fun h => (mem_unused.1 h).2 hx, if_neg fun h => h.1 hx]; rfl
    · have hf : e.source ∈ c.unused xs := mem_unused.2 ⟨mem_ids_of_node? hn, hx⟩
      rw [branch_fresh hn hf, without_unused, treeAlong, payload?, hn]
      cases hp : n.payload <;>
        simp [hx, hp, Node.kind?, Payload.kind?, Branch.formula?, Branch.formulas_eq_filterMap, rootsAlong]

/-! ### Trees at the ends of walks -/

/-- The tree at the end of a walk. -/
def treeAt (c : Canvas P) (id : String) (w : List Nat) : Formula := c.treeAlong (c.trail id w) (c.tip id w)

/-- What is read off the edges into the tip of a walk, if only off those that it goes on by, is read off
the walks that go on from it. -/
theorem filterMap_incoming_tip {β : Type} {f : Edge → Option β} {F : List Nat → β}
    (hf : ∀ i e, c.edges[i]? = some e → e.target = c.tip id w →
      f e = if c.IsWalk id (w ++ [i]) then some (F (w ++ [i])) else none) :
    (c.incoming (c.tip id w)).filterMap f = (c.extensions id w).map F := by
  rw [incoming, List.filterMap_filter, filterMap_eq_range, extensions, List.filter_map, List.map_map,
    ← List.filterMap_eq_map, List.filterMap_filter]
  refine List.filterMap_congr fun i hi => ?_
  have he := List.getElem?_eq_getElem (List.mem_range.1 hi)
  rw [he, Option.bind_some]
  simp only [Function.comp_apply, decide_eq_true_eq, beq_iff_eq]
  split
  · rename_i ht
    exact hf i _ he ht
  · rename_i ht
    exact (if_neg fun h => ht ((isWalk_concat_of_edge he).1 h).2.1).symm

theorem rootsAlong_eq (h : c.Extensible id w) :
    c.rootsAlong (c.trail id w) (c.tip id w) = (c.extensions id w).map (c.treeAt id) := by
  rw [rootsAlong, List.filterMap_map]
  refine filterMap_incoming_tip fun i e he ht => ?_
  -- the edge is followed where the walk goes on by it
  rw [Function.comp_apply, formula?_branch, treeAt, trail_concat he, tip_concat he]
  simp only [isWalk_concat_of_edge he, h, ht, true_and]

theorem roots_eq_treeAt : c.roots id = (c.extensions id []).map (c.treeAt id) :=
  (c.roots_eq_rootsAlong id).trans (rootsAlong_eq (.inl rfl))

/-- A walk ends at a condition, or at a logic node, from where it may go on. -/
theorem IsWalk.tip_cases (h : c.IsWalk id w) :
    (∃ t, c.payload? (c.tip id w) = some (.condition t) ∧ ¬ c.Extensible id w) ∨
      ∃ op, c.payload? (c.tip id w) = some (.logic op) ∧ c.Extensible id w := by
  have hext : c.Extensible id w ↔ c.index.kindOf? (c.tip id w) = some .logic :=
    ⟨fun hw => (hw.resolve_left h.nonempty).2, fun hk => .inr ⟨h, hk⟩⟩
  obtain ⟨v, i, e, rfl, he⟩ := h.exists_concat
  obtain ⟨-, -, -, hk⟩ := (isWalk_concat_of_edge he).1 h
  rw [tip_concat he, kindOf?_index] at hext
  rw [kindOf?_index] at hk
  rw [hext, tip_concat he, payload?]
  cases hn : c.node? e.source with
  | none => rw [hn] at hk; rcases hk with hk | hk <;> cases hk
  | some n =>
    rw [hn] at hk
    cases hp : n.payload <;> simp_all [Node.kind?, Payload.kind?]

theorem IsWalk.payload?_tip (h : c.IsWalk id w) : c.payload? (c.tip id w) = some (c.treeAt id w).payload := by
  rw [treeAt, treeAlong]
  rcases h.tip_cases with ⟨t, hp, -⟩ | ⟨op, hp, -⟩ <;> rw [hp] <;> rfl

theorem IsWalk.operands_treeAt (h : c.IsWalk id w) :
    (c.treeAt id w).operands = (c.extensions id w).map (c.treeAt id) := by
  rcases h.tip_cases with ⟨t, hp, hstop⟩ | ⟨op, hp, hw⟩
  · rw [extensions_eq_nil hstop, treeAt, treeAlong, hp]; rfl
  · rw [← rootsAlong_eq hw, treeAt, treeAlong, hp]; rfl

theorem subtreesOf_extensions (c : Canvas P) (id : String) (w : List Nat) :
    subtreesOf ((c.extensions id w).map (c.treeAt id)) = (c.walksFrom id w).map (c.treeAt id) := by
  induction w using walksFrom.induct c id with
  | case1 w ih =>
    rw [Formula.subtreesOf_eq_flatMap, List.flatMap_map, walksFrom_eq, List.map_flatMap]
    refine List.flatMap_congr fun v hv => ?_
    obtain ⟨i, -, h⟩ := mem_extensions.1 hv
    rw [Formula.subtrees_eq, h.operands_treeAt, ih v hv, List.map_cons]

theorem depth_treeAt (hid : id ∈ c.ids) (h : c.IsWalk id w) :
    (c.treeAt id w).depth + w.length ≤ c.ids.dedup.length := by
  induction w using walksFrom.induct c id with
  | case1 w ih =>
    have hlt := h.length_lt hid
    have hdepths : Formula.depth.depths (c.treeAt id w).operands ≤ c.ids.dedup.length - w.length - 1 := by
      rw [h.operands_treeAt, Formula.depths_le_iff, List.forall_mem_map]
      intro v hv
      obtain ⟨i, rfl, h⟩ := mem_extensions.1 hv
      have := ih _ hv h
      rw [List.length_append, List.length_singleton] at this
      omega
    rw [Formula.depth_eq]
    omega

/-- The trees `fs` follow the walks upstream from `id`, to each of which `tree` gives the tree at its end. -/
structure Traced (c : Canvas P) (id : String) (fs : List Formula) (walks : List (List Nat))
    (tree : List Nat → Formula) : Prop where
  mem_iff : ∀ w, w ∈ walks ↔ c.IsWalk id w
  sorted : walks.Pairwise (· < ·)
  /-- In pre-order. -/
  nodes : subtreesOf fs = walks.map tree
  roots : fs = (c.extensions id []).map tree
  operands : ∀ w ∈ walks, (tree w).operands = (c.extensions id w).map tree
  payload : ∀ w ∈ walks, c.payload? (c.tip id w) = some (tree w).payload
  shallow : ∀ f ∈ fs, f.depth < c.ids.dedup.length

theorem traced_roots (hid : id ∈ c.ids) :
    c.Traced id (c.roots id) (c.walksFrom id []) (c.treeAt id) := by
  refine ⟨fun _ => mem_walksFrom_nil, c.sorted_walksFrom id [], ?_, roots_eq_treeAt, ?_, ?_, ?_⟩
  · rw [roots_eq_treeAt, subtreesOf_extensions]
  · exact fun w hw => (mem_walksFrom_nil.1 hw).operands_treeAt
  · exact fun w hw => (mem_walksFrom_nil.1 hw).payload?_tip
  · rw [roots_eq_treeAt, List.forall_mem_map]
    intro w hw
    obtain ⟨i, rfl, h⟩ := mem_extensions.1 hw
    have hdepth := depth_treeAt hid h
    rw [List.length_append, List.length_singleton] at hdepth
    omega

/-- There is a slot for each badge node, in order. -/
theorem slots_badges (c : Canvas P) (id name : String) (description : Option String) :
    (c.compile id name description).rule.slots =
      (c.ofKind .badge).map fun b => Slot.ofRoots (c.roots b.id) := by
  have h := congrArg (List.map Slot.ofRoots) c.snd_guards
  rw [List.map_map, List.map_map] at h
  rw [slots_compile]; exact h

theorem roots_badges (c : Canvas P) (id name : String) (description : Option String) :
    (c.compile id name description).rule.slots.map Slot.roots = (c.ofKind .badge).map fun b => c.roots b.id :=
  roots_compile.trans c.snd_guards

/-- What is reported of the branches that arrive at an id. -/
def reports (c : Canvas P) (id : String) : List Event := (c.branches c.index id).flatMap Branch.events

/-- The reports of the badge nodes follow each other in order. -/
theorem dropped_badges (c : Canvas P) (id name : String) (description : Option String) :
    (c.compile id name description).dropped = (c.ofKind .badge).flatMap fun b => c.reports b.id :=
  flatMap_badges fun _ bs => bs.flatMap Branch.events

end Canvas

/-- A canvas with any edges at all compiles to an award and a slot for each node in `Canvas.ofKind .badge`, and
the roots of the slot follow the walks upstream from the badge (`Canvas.Traced`). -/
theorem compile_follows_walks (c : Canvas P) (id name : String) (description : Option String) :
    let r := (c.compile id name description).rule
    r.awards.map Payload.badge = (c.ofKind .badge).map Node.payload ∧
      List.Forall₂ (fun s b => s = Slot.ofRoots s.roots ∧ ∃ walks tree, c.Traced b.id s.roots walks tree)
        r.slots (c.ofKind .badge) := by
  intro r
  have hawards : r.awards.map Payload.badge = (c.ofKind .badge).map Node.payload := by
    rw [Canvas.awards_compile, List.map_map]; exact c.fst_guards
  refine ⟨hawards, ?_⟩
  rw [Canvas.slots_badges, List.forall₂_map_left_iff, List.forall₂_same]
  intro b hb
  rw [Slot.roots_ofRoots]
  exact ⟨rfl, _, _, Canvas.traced_roots (Canvas.mem_ids_of_mem_ofKind hb)⟩

end BadgeRules
