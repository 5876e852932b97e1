import BadgeRules.Proofs.NothingDropped
import BadgeRules.Proofs.Redrawing

/-!
# Sites

A site is a place in the trees that a canvas compiles to, given by a badge and a walk upstream from it.
The walks list them in the order in which compiling comes to their nodes (`map_nodeAt?`) and in which
expanding makes new ones (`Rule.Shows.roots_nodes`, `map_treesAt`), whatever edges were dropped and
however often a node occurs. So the entries of a saved layout stand in the order of the new nodes
(`layout_follows_sites`).
-/

namespace BadgeRules
open Formula.subtrees

variable {P Q : Type} {c : Canvas P}

/-- A place in the trees of a canvas. The empty walk leads to the badge itself. -/
structure Site (P : Type) where
  badge : Node P
  walk : List Nat

namespace Canvas

/-- Every badge in order, followed by the places in its trees in pre-order. -/
def sites (c : Canvas P) : List (Site P) :=
  (c.ofKind .badge).flatMap fun b => ⟨b, []⟩ :: (c.walksFrom b.id []).map (Site.mk b)

/-- The node that a site was built from. -/
def nodeAt? (c : Canvas P) (s : Site P) : Option (Node P) :=
  if s.walk = [] then some s.badge else c.node? (c.tip s.badge.id s.walk)

/-- The trees that feed a site. -/
def treesAt (c : Canvas P) (s : Site P) : List Formula :=
  (c.extensions s.badge.id s.walk).map (c.treeAt s.badge.id)

/-! ### Compiling comes to the sites in order -/

/-- The nodes that are come to upstream of `x` when a branch has come through `xs`. -/
def nodesAlong (c : Canvas P) (xs : List String) (x : String) : List (Node P) :=
  ((c.incoming x).map (c.index.branch (c.unused xs))).flatMap Branch.nodes

/-- Only branches with a tree have nodes. -/
theorem flatMap_nodes (bs : List (Branch P)) :
    bs.flatMap Branch.nodes = (bs.filterMap fun b => b.formula?.map fun _ => b.nodes).flatten := by
  induction bs with
  | nil => rfl
  | cons b bs ih =>
    rw [List.flatMap_cons, List.filterMap_cons, ih]
    cases b <;> rfl

theorem nodes_branch {xs : List String} {e : Edge} {n : Node P} (hn : c.node? e.source = some n)
    (hx : e.source ∉ xs) : (c.index.branch (c.unused xs) e).nodes = match n.payload with
      | .condition _ => [n]
      | .logic _ => n :: c.nodesAlong (xs ++ [e.source]) e.source
      | _ => [] := by
  have hf : e.source ∈ c.unused xs := mem_unused.2 ⟨mem_ids_of_node? hn, hx⟩
  rw [branch_fresh hn hf, without_unused]
  cases n.payload with
  | logic op => rw [Branch.nodes, Branch.nodesOf_eq_flatMap, nodesAlong]
  | condition t => rfl
  | badge a => rfl
  | unknown => rfl

theorem IsWalk.exists_node {id : String} {w : List Nat} (h : c.IsWalk id w) :
    ∃ n, c.node? (c.tip id w) = some n ∧ n.payload = (c.treeAt id w).payload :=
  Option.map_eq_some_iff.1 h.payload?_tip

/-- The nodes at the ends of walks. -/
def endNodes (c : Canvas P) (id : String) (walks : List (List Nat)) : List (Node P) :=
  walks.filterMap fun w => c.node? (c.tip id w)

section Ends

variable {id : String} {w : List Nat}

/-- On the branch along the last edge of a walk, the node at its end is followed by those upstream. -/
theorem IsWalk.nodes_branch {i : Nat} {e : Edge} (h : c.IsWalk id (w ++ [i])) (he : c.edges[i]? = some e)
    (hup : c.Extensible id (w ++ [i]) → c.nodesAlong (c.trail id (w ++ [i])) (c.tip id (w ++ [i])) =
      c.endNodes id (c.walksFrom id (w ++ [i]))) :
    (c.index.branch (c.unused (c.trail id w)) e).nodes =
      c.endNodes id ((w ++ [i]) :: c.walksFrom id (w ++ [i])) := by
  obtain ⟨-, -, hx, -⟩ := (isWalk_concat_of_edge he).1 h
  obtain ⟨n, hn, -⟩ := h.exists_node
  have hcases := h.tip_cases
  rw [payload?, hn, Option.map_some] at hcases
  have hends : c.endNodes id ((w ++ [i]) :: c.walksFrom id (w ++ [i])) =
      n :: c.endNodes id (c.walksFrom id (w ++ [i])) := List.filterMap_cons_some hn
  rw [tip_concat he] at hn hup
  rw [trail_concat he] at hup
  rw [hends, Canvas.nodes_branch hn hx]
  rcases hcases with ⟨t, hp, hstop⟩ | ⟨op, hp, hgo⟩
  · rw [Option.some_inj.1 hp, walksFrom_eq, extensions_eq_nil hstop]
    rfl
  · rw [Option.some_inj.1 hp, ← hup hgo]

theorem nodesAlong_eq (h : c.Extensible id w) :
    c.nodesAlong (c.trail id w) (c.tip id w) = c.endNodes id (c.walksFrom id w) := by
  induction w using walksFrom.induct c id with
  | case1 w ih =>
    let branch := c.index.branch (c.unused (c.trail id w))
    have hblocks : (c.incoming (c.tip id w)).filterMap
          (fun e => (branch e).formula?.map fun _ => (branch e).nodes) =
        (c.extensions id w).map fun v => c.endNodes id (v :: c.walksFrom id v) := by
      apply filterMap_incoming_tip
      intro i e he ht
      -- the branch along an edge has nodes exactly if the walk goes on by it
      rw [formula?_branch]
      by_cases hv : c.IsWalk id (w ++ [i])
      · rw [if_pos hv, if_pos ((isWalk_concat_of_edge he).1 hv).2.2, Option.map_some]
        exact congrArg some (hv.nodes_branch he (ih _ (mem_extensions.2 ⟨i, rfl, hv⟩)))
      · rw [if_neg hv, if_neg fun hx => hv ((isWalk_concat_of_edge he).2 ⟨h, ht, hx⟩)]
        rfl
    rw [nodesAlong, flatMap_nodes, List.filterMap_map, walksFrom_eq, endNodes, List.filterMap_flatMap]
    exact congrArg List.flatten hblocks

end Ends

theorem visited_eq_walks (c : Canvas P) : visited (c.badges c.index) =
    (c.ofKind .badge).flatMap fun b => b :: c.endNodes b.id (c.walksFrom b.id []) := by
  rw [visited_eq_badges]
  refine List.flatMap_congr fun b _ => congrArg _ ?_
  rw [branches, index_incoming, without_ids]
  exact nodesAlong_eq (.inl rfl)

theorem map_some_filterMap {α β : Type} {f : α → Option β} {as : List α} (h : ∀ a ∈ as, (f a).isSome) :
    (as.filterMap f).map some = as.map f := by
  rw [List.map_filterMap_some_eq_filter_map_isSome, List.filter_eq_self, List.forall_mem_map]
  exact h

/-- A node is come to for each site, in their order. -/
theorem map_nodeAt? (c : Canvas P) : c.sites.map c.nodeAt? = (visited (c.badges c.index)).map some := by
  rw [visited_eq_walks, sites, List.map_flatMap, List.map_flatMap]
  refine List.flatMap_congr fun b _ => ?_
  have hwalks : ∀ w ∈ c.walksFrom b.id [], c.nodeAt? ⟨b, w⟩ = c.node? (c.tip b.id w) :=
    fun w hw => if_neg (mem_walksFrom_nil.1 hw).nonempty
  have hsome : ∀ w ∈ c.walksFrom b.id [], (c.node? (c.tip b.id w)).isSome := by
    intro w hw
    obtain ⟨n, hn, -⟩ := (mem_walksFrom_nil.1 hw).exists_node
    rw [hn]
    rfl
  rw [List.map_cons, List.map_cons, endNodes, map_some_filterMap hsome, List.map_map]
  exact congrArg _ (List.map_congr_left hwalks)

/-! ### Expanding makes nodes for the sites in order -/

theorem map_treesAt (c : Canvas P) :
    c.sites.map c.treesAt = c.guards.flatMap fun g => g.2 :: (subtreesOf g.2).map Formula.operands := by
  rw [← List.flatMap_map Prod.snd fun fs => fs :: (subtreesOf fs).map Formula.operands, snd_guards,
    List.flatMap_map, sites, List.map_flatMap]
  refine List.flatMap_congr fun b _ => ?_
  rw [List.map_cons, roots_eq_treeAt, subtreesOf_extensions, List.map_map, List.map_map]
  refine congrArg _ (List.map_congr_left fun w hw => ?_)
  exact (mem_walksFrom_nil.1 hw).operands_treeAt.symm

/-- The trees that arrive at the sources of what is passed are the operands of the trees there. -/
theorem Sound.roots_sources (hs : c.Sound) {es ws : List Edge} {fs : List Formula}
    (h : Unfolds c es fs ws) :
    ws.map (fun w => c.roots w.source) = (subtreesOf fs).map Formula.operands := by
  induction h with
  | nil => rfl
  | skip _ _ _ ih => exact ih
  | test hp _ ih =>
    rw [List.map_cons, hs.roots_condition hp, ih]
    rfl
  | gate _ up _ ihup ih =>
    rw [List.map_cons, List.map_append, hs.acyclic.roots_eq up, ihup, ih, ← List.map_append]
    rfl

end Canvas

/-- At every node of the canvas of a rule, in order: the trees that arrive there. -/
theorem Rule.Shows.roots_nodes {r : Rule Q} (h : r.Shows c) : c.nodes.map (fun n => c.roots n.id) =
    r.guarded.flatMap fun g => g.2 :: (subtreesOf g.2).map Formula.operands := by
  have hreads := (List.forall₂_and_left (p := (· ∈ r.planted)) _ _).2 ⟨fun _ hp => hp, h.reads⟩
  have hplanted : (r.planted.flatMap fun p => (p.nodes.map Node.label).map fun l => c.roots l.1) =
      r.guarded.flatMap fun g => g.2 :: (subtreesOf g.2).map Formula.operands := by
    rw [← List.forall₂_eq_eq_eq]
    refine List.rel_flatMap hreads fun p g ⟨hp, hg⟩ => ?_
    -- the edge that was made with a node leaves it
    have hsources : p.sprouts.map (fun s => c.roots s.edge.source) =
        p.sprouts.map fun s => c.roots s.node.id := by
      refine List.map_congr_left fun s hs => ?_
      obtain ⟨m, j, hl, -⟩ := links_plant s (List.mem_flatMap.2 ⟨p, hp, hs⟩)
      rw [hl.source, hl.id]
    have hsprouts := h.sound.roots_sources hg.unfolds
    rw [List.map_map] at hsprouts
    rw [List.forall₂_eq_eq_eq, Planted.nodes, List.map_cons, List.map_cons, List.map_map, List.map_map, ← hsprouts]
    exact congrArg₂ _ (h.acyclic.roots_eq hg.unfolds) hsources.symm
  have hlabels : c.nodes.map (fun n => c.roots n.id) = (c.nodes.map Node.label).map fun l => c.roots l.1 := by
    rw [List.map_map]; rfl
  rw [hlabels, h.labels, ← hplanted, ← List.map_flatMap, ← List.map_flatMap]
  rfl

/-! ### The saved layout -/

namespace Canvas

theorem ids_visited (c : Canvas P) : (visited (c.badges c.index)).map (·.id) =
    (c.ofKind .badge).flatMap fun b => b.id :: (c.walksFrom b.id []).map (c.tip b.id) := by
  rw [visited_eq_walks, List.map_flatMap]
  refine List.flatMap_congr fun b _ => ?_
  rw [List.map_cons, endNodes, List.map_filterMap, ← List.filterMap_eq_map]
  refine congrArg _ (List.filterMap_congr fun w hw => ?_)
  obtain ⟨n, hn, -⟩ := (mem_walksFrom_nil.1 hw).exists_node
  rw [hn, Option.map_some, Function.comp_apply, id_of_node? hn]

theorem mem_ids_visited {x : String} : x ∈ (visited (c.badges c.index)).map (·.id) ↔
    ∃ b ∈ c.ofKind .badge, b.id = x ∨ ∃ w, c.IsWalk b.id w ∧ c.tip b.id w = x := by
  simp only [ids_visited, List.mem_flatMap, List.mem_cons, List.mem_map, mem_walksFrom_nil,
    eq_comm (a := x)]

theorem mem_strays {n : Node P} : n ∈ c.strays (c.badges c.index) ↔
    n ∈ c.nodes ∧ n.id ∉ (visited (c.badges c.index)).map (·.id) := by
  simp only [strays, List.mem_filter, Bool.not_eq_true', List.contains_eq_mem, decide_eq_false_iff_not]

section Distinct

variable (h : c.ids.Nodup) {n : Node P} (hn : n ∈ c.nodes)
include h hn

/-- The nodes that are left over are neither badges nor at the end of a walk. -/
theorem mem_strays_iff : n ∈ c.strays (c.badges c.index) ↔ n.kind? ≠ some .badge ∧
    ∀ b ∈ c.ofKind .badge, ∀ w, c.IsWalk b.id w → c.tip b.id w ≠ n.id := by
  rw [mem_strays, mem_ids_visited]
  constructor
  · rintro ⟨-, hfree⟩
    refine ⟨fun hk => hfree ?_, fun b hb w hw htip => hfree ⟨b, hb, .inr ⟨w, hw, htip⟩⟩⟩
    exact ⟨n, List.mem_filter.2 ⟨hn, by simpa using hk⟩, .inl rfl⟩
  · rintro ⟨hk, hwalks⟩
    refine ⟨hn, ?_⟩
    rintro ⟨b, hb, hid | ⟨w, hw, htip⟩⟩
    · obtain ⟨hbc, hbk⟩ := List.mem_filter.1 hb
      obtain rfl := eq_of_ids_nodup h hbc hn hid
      exact hk (by simpa using hbk)
    · exact hwalks b hb w hw htip

theorem mem_visited_or_strays : n ∈ visited (c.badges c.index) ++ c.strays (c.badges c.index) := by
  by_cases hid : n.id ∈ (visited (c.badges c.index)).map (·.id)
  · obtain ⟨m, hm, hmid⟩ := List.mem_map.1 hid
    obtain rfl := eq_of_ids_nodup h (c.visited_subset hm) hn hmid
    exact List.mem_append_left _ hm
  · exact List.mem_append_right _ (mem_strays.2 ⟨hn, hid⟩)

end Distinct

variable {id name : String} {description : Option String} {place : Cell → P}

/-- Unless an old id is given anew, every new node stands where the node at its site stood. -/
theorem places_of_new_ids (h : ∀ i < (visited (c.badges c.index)).length, nodeId i ∉ c.ids) :
    (c.reopened place id name description).nodes.map Node.position =
      (visited (c.badges c.index)).map Node.position := by
  refine Rule.restore_aligned (Rule.shows_layOut _ place).ids_compiled (fun x hx hs => ?_) fun i hi hid => ?_
  · obtain ⟨n, hn, rfl⟩ := List.mem_map.1 hs
    exact (mem_strays.1 hn).2 hx
  · obtain ⟨n, hn, hnid⟩ := List.mem_map.1 hid
    have hnodes : n ∈ c.nodes := by
      rcases List.mem_append.1 hn with hn | hn
      · exact c.visited_subset hn
      · exact (mem_strays.1 hn).1
    exact absurd (hnid ▸ List.mem_map_of_mem hnodes) (h i (by simpa using hi))

end Canvas

theorem exists_getElem?_of_map_eq {α β γ : Type} {f : α → γ} {g : β → γ} {as : List α} {bs : List β}
    (h : as.map f = bs.map g) {i : Nat} {b : β} (hb : bs[i]? = some b) : ∃ a, as[i]? = some a ∧ f a = g b := by
  have hi := congrArg (·[i]?) h
  simp only [List.getElem?_map, hb, Option.map_some] at hi
  exact Option.map_eq_some_iff.1 hi

/-- The layout of `compile` begins with an entry for each of the `sites`, in the order in which `expand` makes nodes:
that of the node at the site (`nodeAt?`), with its payload and the trees that arrive there (`treesAt`). If ids are
distinct, the nodes at the tip of no walk follow, each once, and every node has an entry. If no id on the canvas
is given anew by `nodeId`, `restore` puts the new nodes where their entries say. -/
theorem layout_follows_sites (c : Canvas Position) (g : Grid Float) (id name : String)
    (description : Option String) :
    let r := (c.compile id name description).rule
    let d := r.expand g
    ∃ saved, r.layout = some saved ∧ d.nodes.length = c.sites.length ∧ d.nodes.length ≤ saved.length ∧
      (∀ (i : Nat) (s : Site Position), c.sites[i]? = some s → ∃ m ∈ c.nodes, ∃ n,
        c.nodeAt? s = some m ∧ saved[i]? = some ⟨m.id, m.position⟩ ∧
          d.nodes[i]? = some n ∧ n.payload = m.payload ∧ d.roots n.id = c.treesAt s) ∧
      (c.ids.Nodup →
        (∃ rest, rest.Sublist c.nodes ∧ saved.drop d.nodes.length = Rule.snapshot rest ∧
          ∀ m ∈ c.nodes, m ∈ rest ↔ m.kind? ≠ some .badge ∧
            ∀ b ∈ c.ofKind .badge, ∀ w, c.IsWalk b.id w → c.tip b.id w ≠ m.id) ∧
        ∀ m ∈ c.nodes, ⟨m.id, m.position⟩ ∈ saved) ∧
      ((∀ i < d.nodes.length, nodeId i ∉ c.ids) →
        d.nodes.map Node.position = (saved.take d.nodes.length).map Placement.position) := by
  intro r d
  let V := Canvas.visited (c.badges c.index)
  let S := c.strays (c.badges c.index)
  have hshows : r.Shows d := r.shows_expandWith g.place
  have hpayloads : d.nodes.map Node.payload = V.map Node.payload := hshows.payloads_compiled
  have hroots : d.nodes.map (fun n => d.roots n.id) = c.sites.map c.treesAt := by
    rw [hshows.roots_nodes, Canvas.guarded_compile, Canvas.map_treesAt]
  have hsites : V.map some = c.sites.map c.nodeAt? := c.map_nodeAt?.symm
  have hlen : d.nodes.length = (Rule.snapshot V).length := by
    simpa [Rule.snapshot] using congrArg List.length hpayloads
  have hsaved : Rule.snapshot (V ++ S) = Rule.snapshot V ++ Rule.snapshot S := List.map_append
  refine ⟨Rule.snapshot (V ++ S), rfl, ?sites, ?room, fun i s hs => ?entry, fun hd => ⟨?rest, fun m hm => ?all⟩,
    fun hnew => ?places⟩
  case sites => simpa using congrArg List.length hroots
  case room => rw [hlen, hsaved, List.length_append]; exact Nat.le_add_right _ _
  case entry =>
    obtain ⟨m, hm, hnode⟩ := exists_getElem?_of_map_eq hsites hs
    obtain ⟨n, hn, hpay⟩ := exists_getElem?_of_map_eq hpayloads hm
    obtain ⟨n', hn', htrees⟩ := exists_getElem?_of_map_eq hroots hs
    obtain rfl := Option.some_inj.1 (hn.symm.trans hn')
    exact ⟨m, c.visited_subset (List.mem_of_getElem? hm), n, hnode.symm, Rule.snapshot_getElem? hm, hn, hpay, htrees⟩
  case rest =>
    refine ⟨S, List.filter_sublist, ?_, fun m hm => Canvas.mem_strays_iff hd hm⟩
    rw [hlen, hsaved, List.drop_left]
  case all =>
    exact List.mem_map_of_mem (f := fun n : Node Position => (⟨n.id, n.position⟩ : Placement Position))
      (Canvas.mem_visited_or_strays hd hm)
  case places =>
    have hplaces : d.nodes.map Node.position = V.map Node.position := by
      refine Canvas.places_of_new_ids fun i hi => hnew i ?_
      rw [hlen, Rule.snapshot, List.length_map]
      exact hi
    rw [hlen, hsaved, List.take_left, hplaces, Rule.snapshot, List.map_map]
    rfl

/-- Two gates in a circle, a condition that feeds both of them, and a note. -/
theorem layout_follows_sites_circle :
    ∃ (c : Canvas Position) (saved : List (Placement Position)),
      c.ids = ["note", "any", "all", "member", "gold"] ∧ ¬ c.Acyclic ∧
      let r := (c.compile "r" "R").rule
      r.layout = some saved ∧ (∀ m ∈ c.nodes, ⟨m.id, m.position⟩ ∈ saved) ∧
        r.expand.nodes.map Node.position = (saved.take r.expand.nodes.length).map Placement.position := by
  let c : Canvas Position :=
    { nodes := [⟨"note", ⟨0, 300⟩, .unknown⟩, ⟨"any", ⟨250, 0⟩, .logic .or⟩, ⟨"all", ⟨250, 100⟩, .logic .and⟩,
        ⟨"member", ⟨0, 0⟩, .condition ⟨"member", .equal, .single (.bool true)⟩⟩,
        ⟨"gold", ⟨500, 0⟩, .badge ⟨"GOLD", none, 1⟩⟩]
      edges := [{ id := "e0", source := "any", target := "gold" },
        { id := "e1", source := "member", target := "any" },
        { id := "e2", source := "all", target := "any" },
        { id := "e3", source := "any", target := "all" },
        { id := "e4", source := "member", target := "all" }] }
  have hcircle : ¬ c.Acyclic := by
    intro h
    have hany : c.Feeds "any" "all" := ⟨{ id := "e3", source := "any", target := "all" }, by simp [c], rfl, rfl⟩
    have hall : c.Feeds "all" "any" := ⟨{ id := "e2", source := "all", target := "any" }, by simp [c], rfl, rfl⟩
    exact h "any" (.tail (.single hany) hall)
  have hnew : ∀ i, nodeId i ∉ c.ids := by
    intro i hi
    have hother : ∀ x ∈ c.ids, x.toList.take 5 ≠ "node_".toList := by decide
    exact hother _ hi (by rw [nodeId, String.toList_append]; rfl)
  obtain ⟨saved, hlayout, -, -, -, hall, hplaces⟩ := layout_follows_sites c .standard "r" "R" none
  exact ⟨c, saved, rfl, hcircle, hlayout, (hall (by decide)).2, hplaces fun i _ => hnew i⟩

end BadgeRules
