import Mathlib.Data.List.Flatten
import BadgeRules.Proofs.FixedPoint

/-!
# Sound canvases can be drawn

An edge may be drawn exactly if the canvas is still sound with it (`Canvas.sound_addEdge_iff`), so the
check accepts the edges of a canvas in their order exactly if the canvas is sound
(`Canvas.drawn_iff_sound`). The canvas of a rule is sound wherever its nodes stand
(`Rule.Shows.sound`).
-/

namespace BadgeRules
open Relation

variable {P Q : Type} {c : Canvas P}

namespace Canvas

/-- What the edge closes is a cycle if anything leads back from its target. -/
theorem Sound.fits {e : Edge} (h : (c.addEdge e).Sound) : c.Fits e.source e.target := by
  have he : e ∈ (c.addEdge e).edges := List.mem_append_right _ (List.mem_singleton_self e)
  obtain ⟨hs, ht⟩ := h.named e he
  refine ⟨hs, ht, (h.kinds e he).withEdges c.edges, ?unjoined, ?noReturn⟩
  case unjoined =>
    rintro ⟨e', he', hs', ht'⟩
    refine (List.pairwise_append.1 h.simple).2.2 e' he' e (List.mem_singleton_self e) ?_
    rw [hs', ht']
  case noReturn =>
    intro hp
    have hback : ReflTransGen (c.addEdge e).Feeds e.target e.source :=
      ReflTransGen.mono (fun _ _ => Feeds.of_subset fun _ => List.mem_append_left _) _ _ hp
    exact h.acyclic e.source (.head' ⟨e, he, rfl, rfl⟩ hback)

theorem sound_addEdge_iff {e : Edge} : (c.addEdge e).Sound ↔ c.Sound ∧ c.Fits e.source e.target :=
  ⟨fun h => ⟨h.sublist (List.sublist_append_left _ _), h.fits⟩, fun h => h.1.addEdge h.2⟩

theorem Sound.acceptsInTurn {es : List Edge} (h : ({ c with edges := c.edges ++ es } : Canvas P).Sound) :
    c.acceptsInTurn es = true := by
  induction es generalizing c with
  | nil => rfl
  | cons e es ih =>
    rw [List.append_cons] at h
    have hnext : (c.addEdge e).Sound := h.sublist (List.sublist_append_left _ _)
    exact Bool.and_eq_true_iff.2 ⟨accepts_connection_iff.2 (sound_addEdge_iff.1 hnext).2, ih h⟩

theorem drawn_iff_sound : c.Drawn ↔ c.Sound :=
  ⟨Drawn.sound, fun h => Sound.acceptsInTurn (c := { c with edges := [] }) h⟩

/-! ### The canvas of a rule -/

theorem kindOf?_eq_payload? (id : String) : c.index.kindOf? id = (c.payload? id).bind Payload.kind? := by
  rw [kindOf?_index, payload?, Option.bind_map]; rfl

/-- What is passed leads from a condition or a logic node, and to a logic node unless it was followed
to begin with. -/
theorem Unfolds.ends {es ws : List Edge} {fs : List Formula} (h : Unfolds c es fs ws) : ∀ w ∈ ws,
    (∃ k, c.index.kindOf? w.source = some k ∧ k ≠ .badge) ∧
      (w ∈ es ∨ c.index.kindOf? w.target = some .logic) := by
  simp only [kindOf?_eq_payload?]
  induction h with
  | nil => exact fun _ hw => (List.not_mem_nil hw).elim
  | skip _ _ _ ih => exact fun w hw => (ih w hw).imp id (Or.imp (List.mem_cons_of_mem _) id)
  | @test e t es ws fs hp _ ih =>
    intro w hw
    rcases List.mem_cons.1 hw with rfl | hw
    · exact ⟨⟨.condition, by rw [hp]; rfl, nofun⟩, .inl List.mem_cons_self⟩
    · exact (ih w hw).imp id (Or.imp (List.mem_cons_of_mem _) id)
  | @gate e op es us ws gs fs hp _ _ ihup ih =>
    have hlogic : (c.payload? e.source).bind Payload.kind? = some .logic := by rw [hp]; rfl
    intro w hw
    rcases List.mem_cons.1 hw with rfl | hw
    · exact ⟨⟨.logic, hlogic, nofun⟩, .inl List.mem_cons_self⟩
    rcases List.mem_append.1 hw with hw | hw
    · refine (ihup w hw).imp id fun ht => .inr (ht.elim (fun hin => ?_) id)
      rw [(mem_incoming.1 hin).2, hlogic]
    · exact (ih w hw).imp id (Or.imp (List.mem_cons_of_mem _) id)

end Canvas

/-- Badges feed nothing, conditions are fed by nothing, and that is all. -/
theorem NodeKind.canFeed_iff {k l : NodeKind} : k.canFeed l = true ↔ k ≠ .badge ∧ l ≠ .condition := by
  cases k <;> cases l <;> decide

theorem nodeId_ne_empty (n : Nat) : nodeId n ≠ "" := by
  rw [nodeId, ne_eq, String.append_eq_empty_iff]
  exact fun h => absurd h.1 (by decide)

namespace Rule.Shows

variable {r : Rule Q}

theorem nodup_sources (h : r.Shows c) : (c.edges.map Edge.source).Nodup := by
  have hids : c.edges.map Edge.source = r.sprouts.map (·.node.id) := by
    rw [h.edges, edges_layOut, List.map_map]
    refine List.map_congr_left fun s hs => ?_
    obtain ⟨m, j, hl, -⟩ := links_plant s hs
    exact hl.source.trans hl.id.symm
  have hsub : (r.sprouts.map Sprout.node).Sublist r.layOut.nodes := by
    rw [sprouts, List.map_flatMap]
    exact List.Sublist.flatMap_right _ fun p _ => List.sublist_cons_self p.badge _
  rw [hids]
  have := hsub.map (·.id)
  rw [List.map_map] at this
  exact r.nodup_ids_layOut.sublist this

theorem kinds (h : r.Shows c) : ∀ e ∈ c.edges, c.Matches e.source e.target := by
  intro e he
  rw [h.edges] at he
  obtain ⟨p, hp, hep⟩ := List.mem_flatMap.1 he
  obtain ⟨g, hg⟩ := h.reads_of_mem p hp
  obtain ⟨⟨k, hk, hne⟩, ht⟩ := hg.unfolds.ends e hep
  rcases ht with hin | hlogic
  · have hmem : p.badge ∈ r.layOut.nodes := List.mem_flatMap.2 ⟨p, hp, List.mem_cons_self⟩
    have hbadge : c.index.kindOf? e.target = some .badge := by
      rw [(Canvas.mem_incoming.1 hin).2, Canvas.kindOf?_eq_payload?, Canvas.payload?_congr h.labels,
        Canvas.payload?_of_mem r.nodup_ids_layOut hmem, hg.badge]
      rfl
    exact ⟨k, .badge, hk, hbadge, NodeKind.canFeed_iff.2 ⟨hne, nofun⟩⟩
  · exact ⟨k, .logic, hk, hlogic, NodeKind.canFeed_iff.2 ⟨hne, nofun⟩⟩

theorem sound (h : r.Shows c) : c.Sound := by
  refine ⟨h.acyclic, ?_, h.kinds, fun e he => ?_⟩
  · exact (List.pairwise_map.1 h.nodup_sources).imp fun hne hab => hne (Prod.mk.inj hab).1
  · rw [h.edges, edges_layOut] at he
    obtain ⟨s, hs, rfl⟩ := List.mem_map.1 he
    obtain ⟨m, j, hl, -⟩ := links_plant s hs
    rw [hl.source, hl.target]
    exact ⟨nodeId_ne_empty j, nodeId_ne_empty m⟩

end Rule.Shows

end BadgeRules
