import Mathlib.Data.List.Dedup
import BadgeRules.Proofs.Connections

/-!
# The tables answer like the lists

What `Canvas.index` finds in its tables is what a reader finds by going through the nodes and the edges from
the front (`index_agrees`): the first node with an id, all edges at an id in their order, repeated ones as
often as they are there. The edges that arrive, grouped by target, are all edges dealt out once, and so are
the edges that leave (`flatMap_filter_perm`).
-/

namespace BadgeRules

/-- Dealing out a list by a key moves its elements, but keeps each of them once. -/
theorem flatMap_filter_perm {α β : Type} [DecidableEq β] (key : α → β) {ks : List β} {l : List α}
    (hks : ks.Nodup) (hl : ∀ a ∈ l, key a ∈ ks) : (ks.flatMap fun k => l.filter (key · == k)).Perm l := by
  induction ks generalizing l with
  | nil =>
    have hnil : l = [] := List.eq_nil_iff_forall_not_mem.2 fun a ha => List.not_mem_nil (hl a ha)
    rw [hnil]
    exact .nil
  | cons k ks ih =>
    obtain ⟨hk, hks⟩ := List.nodup_cons.1 hks
    let others := l.filter (key · != k)
    -- the other groups are those of the elements that are not in the first one
    have hgroups : (ks.flatMap fun k' => l.filter (key · == k')) = ks.flatMap fun k' => others.filter (key · == k') := by
      refine List.flatMap_congr fun k' hk' => ?_
      rw [List.filter_filter]
      refine List.filter_congr fun a _ => ?_
      by_cases ha : key a = k'
      · have hne : key a ≠ k := fun h => hk (h ▸ ha ▸ hk')
        simp [ha, ha ▸ hne]
      · simp [ha]
    have hothers : ∀ a ∈ others, key a ∈ ks := by
      intro a ha
      obtain ⟨ha, hne⟩ := List.mem_filter.1 ha
      exact (List.mem_cons.1 (hl a ha)).resolve_left (bne_iff_ne.1 hne)
    calc ((k :: ks).flatMap fun k' => l.filter (key · == k'))
        = l.filter (key · == k) ++ ks.flatMap fun k' => others.filter (key · == k') := by
          rw [List.flatMap_cons, hgroups]
      _ |>.Perm (l.filter (key · == k) ++ others) := (ih hks hothers).append_left _
      _ |>.Perm l := List.filter_append_perm _ l

/-- An element is in one group, that of its key. -/
theorem existsUnique_group {α β : Type} [DecidableEq β] (key : α → β) {l : List α} {a : α} (ha : a ∈ l) :
    ∃! k, a ∈ l.filter (key · == k) := by
  refine ⟨key a, List.mem_filter.2 ⟨ha, beq_self_eq_true _⟩, fun k hk => ?_⟩
  exact (eq_of_beq (List.mem_filter.1 hk).2).symm

namespace Canvas

variable {P : Type}

/-- The first node with an id has none before it. -/
theorem node?_eq_some_iff {c : Canvas P} {id : String} {n : Node P} : c.node? id = some n ↔
    n.id = id ∧ ∃ before after, c.nodes = before ++ n :: after ∧ ∀ m ∈ before, m.id ≠ id := by
  simp [node?, List.find?_eq_some_iff_append]

/-- `Canvas.index` answers like the lists of nodes and edges: `node?` and `kindOf?` like the first node with the id,
`incoming` and `outgoing` like filters, `hasEdge` like a search. Each edge is in one bucket of either kind, and
the buckets together hold every edge as often as the list does. -/
theorem index_agrees (c : Canvas P) :
    (∀ id, c.index.node? id = c.nodes.find? (·.id == id)) ∧
      (∀ id n, c.index.node? id = some n ↔
        n.id = id ∧ ∃ before after, c.nodes = before ++ n :: after ∧ ∀ m ∈ before, m.id ≠ id) ∧
      (∀ id, c.index.kindOf? id = (c.nodes.find? (·.id == id)).bind Node.kind?) ∧
      (∀ id, c.index.incoming id = c.edges.filter (·.target == id)) ∧
      (∀ id, c.index.outgoing id = c.edges.filter (·.source == id)) ∧
      (∀ s t, c.index.hasEdge s t = true ↔ ∃ e ∈ c.edges, e.source = s ∧ e.target = t) ∧
      (∀ e ∈ c.edges, (∃! id, e ∈ c.index.incoming id) ∧ ∃! id, e ∈ c.index.outgoing id) ∧
      ((c.edges.map Edge.target).dedup.flatMap c.index.incoming).Perm c.edges ∧
      ((c.edges.map Edge.source).dedup.flatMap c.index.outgoing).Perm c.edges := by
  have hdealt (key : Edge → String) :
      ((c.edges.map key).dedup.flatMap fun id => c.edges.filter (key · == id)).Perm c.edges :=
    flatMap_filter_perm key (List.nodup_dedup _) fun e he => List.mem_dedup.2 (List.mem_map_of_mem he)
  rw [index_node?, index_incoming, index_outgoing]
  exact ⟨fun _ => rfl, fun _ _ => node?_eq_some_iff, kindOf?_index, fun _ => rfl, fun _ => rfl,
    fun _ _ => hasEdge_index_iff, fun e he => ⟨existsUnique_group Edge.target he, existsUnique_group Edge.source he⟩,
    hdealt Edge.target, hdealt Edge.source⟩

/-- Two nodes share an id, an edge is there twice, and its target is not on the canvas. -/
theorem index_agrees_repeated : ∃ c : Canvas Nat, ∃ e ∈ c.edges,
    c.edges.count e = 2 ∧ c.nodes.map (·.id) = ["vip", "vip"] ∧ c.node? e.target = none ∧
      c.index.kindOf? "vip" = some .logic ∧ (c.index.incoming "gold").length = 3 ∧
      (∃! id, e ∈ c.index.incoming id) ∧ ∃! id, e ∈ c.index.outgoing id := by
  let e : Edge := { id := "e0", source := "vip", target := "gold" }
  let c : Canvas Nat :=
    { nodes := [⟨"vip", 0, .logic .and⟩, ⟨"vip", 1, .condition ⟨"vip", .equal, .single (.bool true)⟩⟩]
      edges := [e, { e with id := "e1", source := "member" }, e] }
  obtain ⟨-, -, hkind, hincoming, -, -, honce, -, -⟩ := index_agrees c
  have he : e ∈ c.edges := List.mem_cons_self
  refine ⟨c, e, he, by decide, rfl, rfl, (hkind "vip").trans rfl, ?_, honce e he⟩
  rw [hincoming]
  decide

end Canvas

end BadgeRules
