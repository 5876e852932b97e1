import Mathlib.Data.List.Permutation
import BadgeRules.Proofs.Forest

/-!
# A forest comes back renamed

The occurrences of a canvas are numbered like the nodes that are made for them (`Numbered`), and the
edges that are passed join the same numbers as the edges that are made (`ends_plant`). On a forest
these are all the nodes and all the edges, so that a saved and loaded forest is the same but for the
ids (`Renamed`).
-/

namespace BadgeRules
open Formula.size Formula.sprouts

variable {P Q : Type} {c : Canvas P} {f : String → String}

def Edge.ends (e : Edge) : String × String := (e.source, e.target)

/-- Both ends of an edge, renamed by `f`. -/
def Edge.rename (f : String → String) (e : Edge) : String × String := (f e.source, f e.target)

/-! ### Numbered ids -/

/-- Renamed by `f`, the ids are numbered from `k` on. -/
def Numbered (f : String → String) (k : Nat) (ids : List String) : Prop :=
  ids.map f = (List.range' k ids.length).map nodeId

theorem numbered_cons {k : Nat} {id : String} {ids : List String} :
    Numbered f k (id :: ids) ↔ f id = nodeId k ∧ Numbered f (k + 1) ids := by
  simp only [Numbered, List.length_cons, List.range'_succ, List.map_cons, List.cons.injEq]

theorem numbered_append {k : Nat} {ids ids' : List String} :
    Numbered f k (ids ++ ids') ↔ Numbered f k ids ∧ Numbered f (k + ids.length) ids' := by
  induction ids generalizing k with
  | nil => simp [Numbered]
  | cons id ids ih =>
    rw [List.cons_append, numbered_cons, numbered_cons, ih, and_assoc, List.length_cons, Nat.add_assoc,
      Nat.add_comm 1]

/-! ### Edges that are passed and edges that are made -/

namespace Canvas

variable {es ws : List Edge} {fs : List Formula}

theorem Unfolds.sizes_eq (h : c.Unfolds es fs ws) : sizes fs = ws.length := by
  induction h with
  | nil => rfl
  | skip _ _ _ ih => exact ih
  | test _ _ ih => rw [sizes_test, ih, List.length_cons, Nat.add_comm]
  | gate _ _ _ ihup ih =>
    rw [sizes_gate, ihup, ih, List.length_cons, List.length_append]
    omega

/-- The edges of trees that are read off between nodes join the numbers of these nodes. -/
theorem Unfolds.ends_sproutsOf (h : c.Unfolds es fs ws) {t : String} (hes : ∀ e ∈ es, e.target = t)
    {q col : Nat} {k : Counters} (ht : f t = nodeId q) (hws : Numbered f k.node (ws.map Edge.source)) :
    (sproutsOf q col k fs).map (·.edge.ends) = ws.map (Edge.rename f) := by
  induction h generalizing t q col k with
  | nil => rfl
  | skip _ _ _ ih => exact ih (fun e he => hes e (List.mem_cons_of_mem _ he)) ht hws
  | @test e _ _ _ fs _ _ ih =>
    rw [List.map_cons, numbered_cons] at hws
    have hrest : (sproutsOf q col (k.advance 1) fs).map (·.edge.ends) = _ :=
      ih (fun e he => hes e (List.mem_cons_of_mem _ he)) ht hws.2
    rw [sproutsOf_test, List.map_cons, List.map_cons, hrest, Edge.rename, hws.1, hes e List.mem_cons_self, ht]
    rfl
  | @gate e _ _ us _ gs fs _ up _ ihup ih =>
    rw [List.map_cons, numbered_cons, List.map_append, numbered_append, List.length_map, ← up.sizes_eq] at hws
    obtain ⟨he, hus, hws⟩ := hws
    rw [Nat.add_assoc] at hws
    have htree : (sproutsOf k.node (col - 1) k.afterRoot gs).map (·.edge.ends) = _ :=
      ihup (fun e he => (mem_incoming.1 he).2) he hus
    have hrest : (sproutsOf q col (k.advance (1 + sizes gs)) fs).map (·.edge.ends) = _ :=
      ih (fun e he => hes e (List.mem_cons_of_mem _ he)) ht hws
    rw [sproutsOf_gate, List.map_cons, List.map_cons, List.map_append, List.map_append, htree, hrest,
      Edge.rename, he, hes e List.mem_cons_self, ht]
    rfl

variable {walk : String → List Edge} {row col : Nat} {k : Counters}

theorem ends_plant {gs : List (Award × List Formula)} {bs : List (Node P)}
    (h : List.Forall₂ (fun g b => c.Unfolds (c.incoming b.id) g.2 (walk b.id)) gs bs)
    (hbs : Numbered f k.node (bs.flatMap fun b => b.id :: (walk b.id).map Edge.source)) :
    ((plant col row k gs).flatMap Planted.sprouts).map (·.edge.ends) =
      (bs.flatMap fun b => walk b.id).map (Edge.rename f) := by
  induction h generalizing row k with
  | nil => rfl
  | @cons g b gs bs hg _ ih =>
    rw [List.flatMap_cons, List.cons_append, numbered_cons, numbered_append, List.length_map,
      ← hg.sizes_eq] at hbs
    obtain ⟨hb, htrees, hbs⟩ := hbs
    let trees : Counters := { k with node := k.node + 1 }
    have hsprouts : (sproutsOf k.node (col - 1) trees g.2).map (·.edge.ends) = _ :=
      hg.ends_sproutsOf (fun e he => (mem_incoming.1 he).2) hb htrees
    let rest := plant col (row + 1) (trees.advance (sizes g.2)) gs
    have hrest : (rest.flatMap Planted.sprouts).map (·.edge.ends) = _ := ih hbs
    rw [plant, List.flatMap_cons, List.map_append, hrest, List.flatMap_cons, List.map_append, ← hsprouts]

theorem Acyclic.guards_unfold (hc : c.Acyclic) (hw : c.Walked walk) :
    List.Forall₂ (fun g b => c.Unfolds (c.incoming b.id) g.2 (walk b.id)) c.guards (c.ofKind .badge) := by
  have hroots : ∀ id, c.Unfolds (c.incoming id) (c.roots id) (walk id) := by
    intro id
    obtain ⟨fs, hfs⟩ := hw id
    rwa [hc.roots_eq hfs]
  have hguards := c.snd_guards
  rw [← List.forall₂_eq_eq_eq, List.forall₂_map_left_iff, List.forall₂_map_right_iff] at hguards
  refine hguards.imp fun g b hg => ?_
  rw [hg]
  exact hroots b.id

/-- The edges of a compiled rule's canvas, in order. -/
theorem Sound.ends_compiled (hs : c.Sound) (hw : c.Walked walk) {id name : String}
    {description : Option String} {d : Canvas Q} (hd : (c.compile id name description).rule.Shows d)
    (hids : Numbered f 0 ((c.occurrences walk).map (·.id))) :
    d.edges.map Edge.ends = (c.passed walk).map (Edge.rename f) := by
  rw [hs.ids_occurrences hw] at hids
  rw [hd.edges, Rule.edges_layOut, List.map_map, Rule.sprouts, Rule.planted, guarded_compile, passed]
  exact ends_plant (hs.acyclic.guards_unfold hw) hids

/-- `d` is `c` with ids renamed by `f`, nodes and edges possibly in another order: but badges are in the
same order, and so are the edges into each node. -/
structure Renamed (f : String → String) (c : Canvas P) (d : Canvas Q) : Prop where
  injective : ∀ a ∈ c.ids, ∀ b ∈ c.ids, f a = f b → a = b
  distinct : d.ids.Nodup
  nodes : (c.nodes.map fun n => (f n.id, n.payload)).Perm (d.nodes.map Node.label)
  badges : (c.ofKind .badge).map (fun n => (f n.id, n.payload)) = (d.ofKind .badge).map Node.label
  incoming : ∀ n ∈ c.nodes, (c.incoming n.id).map (Edge.rename f) = (d.incoming (f n.id)).map Edge.ends
  edges : (c.edges.map (Edge.rename f)).Perm (d.edges.map Edge.ends)

/-! ### Forests -/

theorem Sound.badges_occurrences (hs : c.Sound) (hw : c.Walked walk) :
    (c.occurrences walk).filter (·.kind? == some .badge) = c.ofKind .badge := by
  have hsources : ∀ b ∈ c.ofKind .badge,
      ((walk b.id).filterMap fun w => c.node? w.source).filter (·.kind? == some .badge) = [] := by
    intro b hb
    refine List.filter_eq_nil_iff.2 fun n hn => ?_
    obtain ⟨w, hmem, hn⟩ := List.mem_filterMap.1 hn
    obtain ⟨m, hm, hk⟩ := hs.source (hw.passed_subset (List.mem_flatMap.2 ⟨b, hb, hmem⟩))
    rw [hn] at hm
    obtain rfl := Option.some_inj.1 hm
    rcases hk with hk | hk <;> simp [hk]
  rw [occurrences, List.filter_flatMap]
  have hone : ∀ b ∈ c.ofKind .badge, (b :: (walk b.id).filterMap fun w => c.node? w.source).filter
      (·.kind? == some .badge) = [b] := by
    intro b hb
    rw [List.filter_cons, if_pos (List.mem_filter.1 hb).2, hsources b hb]
  rw [List.flatMap_congr hone, List.flatMap_singleton']

namespace Forest

theorem numbered (hf : c.Forest) (hw : c.Walked walk) :
    ∃ f, Numbered f 0 ((c.occurrences walk).map (·.id)) := by
  let occ := (c.occurrences walk).map (·.id)
  refine ⟨fun id => nodeId (occ.idxOf id), List.ext_getElem? fun i => ?_⟩
  by_cases hi : i < occ.length
  · have hidx : occ.idxOf occ[i] = i := (hf.ids_nodup hw).idxOf_getElem i hi
    rw [List.getElem?_map, List.getElem?_eq_getElem hi, Option.map_some, hidx, List.getElem?_map,
      List.getElem?_range' hi]
    simp
  · rw [List.getElem?_eq_none (by simpa [occ] using hi), List.getElem?_eq_none (by simpa [occ] using hi)]

variable {id name : String} {description : Option String} {d : Canvas Q}

/-- The canvas of a compiled forest is the forest again, with other ids. -/
theorem renamed (hf : c.Forest) (hd : (c.compile id name description).rule.Shows d) : ∃ f, c.Renamed f d := by
  have hs := hf.sound
  obtain ⟨walk, hw⟩ := hs.acyclic.exists_walked
  obtain ⟨f, hnum⟩ := hf.numbered hw
  have hends : d.edges.map Edge.ends = (c.passed walk).map (Edge.rename f) := hs.ends_compiled hw hd hnum
  have hids : ((c.occurrences walk).map (·.id)).map f = d.ids := by
    rw [hd.ids_compiled, hs.acyclic.visited_eq hw, List.range_eq_range', hnum, List.length_map]
  have hlabels : (c.occurrences walk).map (fun n => (f n.id, n.payload)) = d.nodes.map Node.label := by
    have hpay := hd.payloads_compiled
    rw [hs.acyclic.visited_eq hw] at hpay
    have hzip : d.nodes.map Node.label = d.ids.zip (d.nodes.map Node.payload) := List.zip_map'.symm
    rw [hzip, hpay, ← hids, List.map_map, List.zip_map']
    rfl
  have hdistinct : d.ids.Nodup := by rw [hd.ids_eq]; exact Rule.nodup_ids_layOut _
  have hinj : ∀ a ∈ c.ids, ∀ b ∈ c.ids, f a = f b → a = b := by
    have hmem : ∀ a ∈ c.ids, a ∈ (c.occurrences walk).map (·.id) := fun a ha =>
      ((hf.occurrences_perm hw).map _).symm.subset ha
    rw [← hids] at hdistinct
    exact fun a ha b hb => List.inj_on_of_nodup_map hdistinct (hmem a ha) (hmem b hb)
  refine ⟨f, hinj, hdistinct, ?nodes, ?badges, ?incoming, ?edges⟩
  case nodes =>
    rw [← hlabels]
    exact ((hf.occurrences_perm hw).map _).symm
  case badges =>
    have hfilter := congrArg (List.filter fun l => l.2.kind? == some .badge) hlabels
    rw [List.filter_map, List.filter_map] at hfilter
    rw [← hs.badges_occurrences hw]
    exact hfilter
  case incoming =>
    intro n hn
    have hinto : (c.passed walk).filter (f ·.target == f n.id) = c.incoming n.id := by
      rw [← hf.passed_into hw hn]
      refine List.filter_congr fun w hmem => ?_
      obtain ⟨m, hm, -⟩ := hs.target (hw.passed_subset hmem)
      rw [Bool.eq_iff_iff, beq_iff_eq, beq_iff_eq]
      exact ⟨hinj _ (mem_ids_of_node? hm) _ (List.mem_map_of_mem hn), congrArg f⟩
    have hfilter := congrArg (List.filter fun l => l.2 == f n.id) hends
    rw [List.filter_map, List.filter_map] at hfilter
    rw [← hinto]
    exact hfilter.symm
  case edges =>
    rw [hends]
    exact ((hf.passed_perm hw).map _).symm

end Forest

end Canvas

/-- `expand` after `compile` gives a `Forest` back up to its ids (`Renamed`). -/
theorem expand_compile_forest {c : Canvas Position} (hf : c.Forest) (g : Grid Float) (id name : String)
    (description : Option String) :
    ∃ f, c.Renamed f ((c.compile id name description).rule.expand g) :=
  hf.renamed (Rule.shows_expandWith _ g.place)

/-- Nodes and edges in no particular order, one of the ids being that of another new node. -/
theorem expand_compile_two_badges :
    ∃ (c : Canvas Position) (f : String → String), c.Forest ∧
      c.ids = ["adult", "node_3", "gold", "both", "silver", "member"] ∧
      c.Renamed f ((c.compile "r" "R").rule.expand) := by
  let t : Comparison := ⟨"member", .equal, .single (.bool true)⟩
  let c : Canvas Position :=
    { nodes := [⟨"adult", ⟨0, 0⟩, .condition ⟨"adult", .equal, .single (.bool true)⟩⟩,
        ⟨"node_3", ⟨0, 100⟩, .condition t⟩, ⟨"gold", ⟨500, 0⟩, .badge ⟨"GOLD", none, 1⟩⟩,
        ⟨"both", ⟨250, 50⟩, .logic .and⟩, ⟨"silver", ⟨500, 200⟩, .badge ⟨"SILVER", none, 2⟩⟩,
        ⟨"member", ⟨0, 200⟩, .condition t⟩]
      edges := [{ id := "e0", source := "both", target := "gold" },
        { id := "e1", source := "member", target := "silver" },
        { id := "e2", source := "node_3", target := "both" },
        { id := "e3", source := "adult", target := "both" }] }
  have hf : c.Forest := by
    refine ⟨by decide, by decide, ?_, by decide⟩
    unfold Canvas.Drawn
    repeat unfold Canvas.acceptsInTurn
    simp only [Canvas.accepts, Canvas.check, Canvas.index_eq_scan]
    cbv
  obtain ⟨f, hfc⟩ := expand_compile_forest hf .standard "r" "R" none
  exact ⟨c, f, hf, rfl, hfc⟩

end BadgeRules
