import BadgeRules.Proofs.Recompiling

/-!
# The occurrences of nodes in trees

Compiling comes to a node once for each place it has in a tree, and expanding makes a node for each of
these places, in the same order and with the same payload (`Rule.Shows.payloads_compiled`). On an
acyclic canvas the occurrences are the sources of the edges that unfolding passes
(`Acyclic.visited_eq`).
-/

namespace BadgeRules
open Formula.payloads

variable {P Q : Type} {c : Canvas P}

theorem payloadsOf_append (fs gs : List Formula) : payloadsOf (fs ++ gs) = payloadsOf fs ++ payloadsOf gs := by
  induction fs with
  | nil => rfl
  | cons f fs ih => rw [List.cons_append, payloadsOf, ih, payloadsOf, List.append_assoc]

/-! ### Payloads, place by place -/

/-- What the nodes of awards with their trees stand for, in the order of expansion. -/
def guardPayloads (gs : List (Award × List Formula)) : List Payload :=
  gs.flatMap fun g => .badge g.1 :: payloadsOf g.2

theorem payloads_branches_of {ix : Index P} {fresh : List String} (es : List Edge)
    (h : ∀ e ∈ es, (ix.branch fresh e).nodes.map Node.payload =
      payloadsOf (ix.branch fresh e).formula?.toList) :
    ((es.map (ix.branch fresh)).flatMap Branch.nodes).map Node.payload =
      payloadsOf ((es.map (ix.branch fresh)).filterMap Branch.formula?) := by
  induction es with
  | nil => rfl
  | cons e es ih =>
    rw [List.map_cons, List.flatMap_cons, List.map_append, h e List.mem_cons_self,
      ih fun e he => h e (List.mem_cons_of_mem _ he), ← payloadsOf_append, List.filterMap_cons]
    cases (ix.branch fresh e).formula? <;> rfl

/-- The nodes on a branch are those of its tree. -/
theorem payloads_branch (ix : Index P) (fresh : List String) (e : Edge) :
    (ix.branch fresh e).nodes.map Node.payload = payloadsOf (ix.branch fresh e).formula?.toList := by
  fun_induction Index.branch ix fresh e with
  | case1 fresh e hn => rfl
  | case2 fresh e n hn hf t hp => simp [Branch.nodes, Branch.formula?, hp, payloadsOf, Formula.payloads]
  | case3 fresh e n hn hf op hp ih =>
    have hup := payloads_branches_of (ix.incoming e.source) fun e' _ => ih e'
    simp only [Branch.nodes, Branch.nodesOf_eq_flatMap, Branch.formula?, Branch.formulas_eq_filterMap,
      List.map_cons, hp, Option.toList_some, payloadsOf, Formula.payloads, List.append_nil]
    exact congrArg _ hup
  | case4 fresh e n hn hf a hp => rfl
  | case5 fresh e n hn hf hp => rfl
  | case6 fresh e n hn hf => rfl

namespace Canvas

/-- The nodes on a branch are nodes of the canvas. -/
theorem nodes_branch_subset (c : Canvas P) (fresh : List String) (e : Edge) :
    (c.index.branch fresh e).nodes ⊆ c.nodes := by
  have hmem : ∀ {id : String} {n : Node P}, c.index.node? id = some n → n ∈ c.nodes := by
    intro id n hn
    rw [index_node?] at hn
    exact mem_of_node? hn
  fun_induction Index.branch c.index fresh e with
  | case1 fresh e hn => exact List.nil_subset _
  | case2 fresh e n hn hf t hp => exact List.cons_subset.2 ⟨hmem hn, List.nil_subset _⟩
  | case3 fresh e n hn hf op hp ih =>
    rw [Branch.nodes, Branch.nodesOf_eq_flatMap, List.flatMap_map]
    refine List.cons_subset.2 ⟨hmem hn, fun m hm => ?_⟩
    obtain ⟨e', -, hm⟩ := List.mem_flatMap.1 hm
    exact ih e' hm
  | case4 fresh e n hn hf a hp => exact List.nil_subset _
  | case5 fresh e n hn hf hp => exact List.nil_subset _
  | case6 fresh e n hn hf => exact List.nil_subset _

theorem visited_subset (c : Canvas P) : visited (c.badges c.index) ⊆ c.nodes := by
  intro m hm
  obtain ⟨⟨n, a, bs⟩, hn, hm⟩ := List.mem_flatMap.1 hm
  rw [badges_eq_award?] at hn
  obtain ⟨n, hnc, hn⟩ := List.mem_filterMap.1 hn
  obtain ⟨a, -, ⟨⟩⟩ := Option.map_eq_some_iff.1 hn
  rcases List.mem_cons.1 hm with rfl | hm
  · exact hnc
  · obtain ⟨b, hb, hm⟩ := List.mem_flatMap.1 hm
    obtain ⟨e, -, rfl⟩ := List.mem_map.1 hb
    exact c.nodes_branch_subset _ e hm

theorem visited_eq_badges (c : Canvas P) : visited (c.badges c.index) =
    (c.ofKind .badge).flatMap fun b => b :: (c.branches c.index b.id).flatMap Branch.nodes :=
  flatMap_badges fun b bs => b :: bs.flatMap Branch.nodes

/-- What is come to while compiling, place by place. -/
theorem payloads_visited (c : Canvas P) :
    (visited (c.badges c.index)).map Node.payload = guardPayloads c.guards := by
  have hguards : guardPayloads c.guards =
      (c.ofKind .badge).flatMap fun b => b.payload :: payloadsOf (c.roots b.id) := by
    have h := congrArg (·.flatMap fun p => p.1 :: payloadsOf p.2) c.guards_badges
    simpa only [guardPayloads, List.flatMap_map] using h
  rw [hguards, visited_eq_badges, List.map_flatMap]
  refine List.flatMap_congr fun b _ => ?_
  rw [List.map_cons, roots, branches, ← payloads_branches_of _ fun e _ => payloads_branch c.index _ e]

end Canvas

namespace Rule.Shows

variable {r : Rule Q}

theorem payloads (h : r.Shows c) : c.nodes.map Node.payload = guardPayloads r.guarded := by
  have hplanted : r.planted.flatMap (·.nodes.map Node.payload) = guardPayloads r.guarded := by
    rw [← List.forall₂_eq_eq_eq]
    refine List.rel_flatMap h.reads fun p g hp => ?_
    have hsprouts : p.sprouts.map (Node.payload ∘ Sprout.node) = payloadsOf g.2 := hp.payloads
    rw [List.forall₂_eq_eq_eq, Planted.nodes, List.map_cons, List.map_map, hp.badge, hsprouts]
  have hl := congrArg (List.map Prod.snd) h.labels
  simp only [List.map_map] at hl
  rw [← hplanted, ← List.map_flatMap]
  exact hl

/-- Expanding a compiled rule makes a node for each occurrence, with its payload. -/
theorem payloads_compiled {d : Canvas Q} {id name : String} {description : Option String}
    (h : (d.compile id name description).rule.Shows c) :
    c.nodes.map Node.payload = (Canvas.visited (d.badges d.index)).map Node.payload := by
  rw [h.payloads, Canvas.guarded_compile, Canvas.payloads_visited]

theorem ids_compiled {d : Canvas Q} {id name : String} {description : Option String}
    (h : (d.compile id name description).rule.Shows c) :
    c.ids = (List.range (Canvas.visited (d.badges d.index)).length).map nodeId := by
  have hlen : c.ids.length = (Canvas.visited (d.badges d.index)).length := by
    simpa [Canvas.ids] using congrArg List.length h.payloads_compiled
  rw [← hlen, h.ids_eq, ids_layOut, List.length_map, List.length_range]

end Rule.Shows

/-! ### Occurrences by unfolding -/

namespace Canvas

/-- `walk` lists the edges upstream of each id, each before those upstream of it. -/
def Walked (c : Canvas P) (walk : String → List Edge) : Prop :=
  ∀ id, ∃ fs, c.Unfolds (c.incoming id) fs (walk id)

/-- Every badge node, followed by the nodes upstream of it. -/
def occurrences (c : Canvas P) (walk : String → List Edge) : List (Node P) :=
  (c.ofKind .badge).flatMap fun b => b :: (walk b.id).filterMap fun w => c.node? w.source

theorem occurrences_subset (c : Canvas P) (walk : String → List Edge) : c.occurrences walk ⊆ c.nodes := by
  intro n hn
  obtain ⟨b, hb, hn⟩ := List.mem_flatMap.1 hn
  rcases List.mem_cons.1 hn with rfl | hn
  · exact (List.mem_filter.1 hb).1
  · obtain ⟨w, -, hw⟩ := List.mem_filterMap.1 hn
    exact mem_of_node? hw

theorem Acyclic.exists_walked (hc : c.Acyclic) : ∃ walk, c.Walked walk := by
  choose walk hwalk using hc.unfolds_roots
  exact ⟨walk, fun id => ⟨_, (hwalk id).1⟩⟩

theorem Acyclic.visited_eq (hc : c.Acyclic) {walk : String → List Edge} (hw : c.Walked walk) :
    visited (c.badges c.index) = c.occurrences walk := by
  rw [visited_eq_badges, occurrences]
  refine List.flatMap_congr fun b _ => congrArg _ ?_
  obtain ⟨ws, hws, hns⟩ := hc.unfolds_roots b.id
  obtain ⟨fs, hfs⟩ := hw b.id
  rw [hns, (hws.unique hfs).2]

end Canvas

end BadgeRules
