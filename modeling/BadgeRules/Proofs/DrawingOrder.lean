import Mathlib.Data.List.Permutation
import Mathlib.Tactic.TFAE
import BadgeRules.Proofs.Redrawing

/-!
# The order of drawing does not matter

Whether the edges of a canvas can be drawn is a property of the canvas as a whole: it is sound in any
order of its edges (`Sound.perm`), and it is sound exactly if each of its edges fits what the others
leave of it (`sound_iff_fits_erase`). A cycle that is closed by several edges is closed by each of them,
so it is enough to look at one edge of it.
-/

namespace BadgeRules
open Relation

variable {P : Type} {c : Canvas P}

namespace Canvas

/-- Fewer edges leave more room. -/
theorem Fits.of_subset {s t : String} {es : List Edge} (h : c.Fits s t) (hes : es ⊆ c.edges) :
    ({ c with edges := es } : Canvas P).Fits s t where
  source_ne := h.source_ne
  target_ne := h.target_ne
  kinds := h.kinds.withEdges es
  unjoined hst := h.unjoined (hst.of_subset fun _ he => hes he)
  noReturn hp := h.noReturn (ReflTransGen.mono (fun _ _ => Feeds.of_subset fun _ he => hes he) _ _ hp)

theorem Sound.perm {es : List Edge} (h : c.Sound) (hes : es.Perm c.edges) :
    ({ c with edges := es } : Canvas P).Sound where
  acyclic := h.acyclic.of_subset hes.subset
  simple := h.simple.perm hes.symm Ne.symm
  kinds e he := (h.kinds e (hes.subset he)).withEdges es
  named e he := h.named e (hes.subset he)

/-! ### One edge against the others -/

/-- The canvas without its `i`-th edge. -/
def eraseEdge (i : Nat) (c : Canvas P) : Canvas P := { c with edges := c.edges.eraseIdx i }

section Erase

variable {i : Nat} (hi : i < c.edges.length)
include hi

theorem perm_eraseEdge : ((c.eraseEdge i).addEdge c.edges[i]).edges.Perm c.edges :=
  (List.perm_append_singleton _ _).trans (List.getElem_cons_eraseIdx_perm hi)

theorem feeds_iff_eraseEdge {a b : String} : c.Feeds a b ↔
    (c.eraseEdge i).Feeds a b ∨ (a = c.edges[i].source ∧ b = c.edges[i].target) := by
  rw [← feeds_addEdge_iff]
  exact ⟨Feeds.of_subset (perm_eraseEdge hi).symm.subset, Feeds.of_subset (perm_eraseEdge hi).subset⟩

theorem Sound.fits_erase (h : c.Sound) : (c.eraseEdge i).Fits c.edges[i].source c.edges[i].target :=
  have hs : ((c.eraseEdge i).addEdge c.edges[i]).Sound := h.perm (perm_eraseEdge hi)
  hs.fits

/-- What returns from the target of an edge returns without the edge. -/
theorem reflTransGen_eraseEdge (hp : ReflTransGen c.Feeds c.edges[i].target c.edges[i].source) :
    ReflTransGen (c.eraseEdge i).Feeds c.edges[i].target c.edges[i].source := by
  rcases reflTransGen_iff_eq_or_transGen.1 hp with heq | hp
  · rw [heq]
  have hsplit := TransGen.mono (fun _ _ => (feeds_iff_eraseEdge hi).1) _ _ hp
  rcases transGen_or_step hsplit with hp | ⟨hp, -⟩
  · exact hp.to_reflTransGen
  · exact hp

end Erase

theorem Sound.of_fits_erase (h : ∀ i (hi : i < c.edges.length),
    (c.eraseEdge i).Fits c.edges[i].source c.edges[i].target) : c.Sound := by
  refine ⟨?acyclic, ?simple, ?kinds, ?named⟩
  case acyclic =>
    intro id hid
    -- the first edge of a cycle returns to its source
    obtain ⟨b, ⟨e, he, rfl, rfl⟩, hp⟩ := TransGen.head'_iff.1 hid
    obtain ⟨i, hi, rfl⟩ := List.getElem_of_mem he
    exact (h i hi).noReturn (reflTransGen_eraseEdge hi hp)
  case simple =>
    rw [List.pairwise_iff_getElem]
    intro i j hi hj hij heq
    obtain ⟨hs, ht⟩ := Prod.mk.inj heq
    have hmem : c.edges[i] ∈ (c.eraseEdge j).edges :=
      List.mem_eraseIdx_iff_getElem.2 ⟨i, hi, Nat.ne_of_lt hij, rfl⟩
    exact (h j hj).unjoined ⟨_, hmem, hs, ht⟩
  case kinds =>
    intro e he
    obtain ⟨i, hi, rfl⟩ := List.getElem_of_mem he
    exact (h i hi).kinds.withEdges c.edges
  case named =>
    intro e he
    obtain ⟨i, hi, rfl⟩ := List.getElem_of_mem he
    exact ⟨(h i hi).source_ne, (h i hi).target_ne⟩

theorem sound_iff_fits_erase : c.Sound ↔ ∀ i (hi : i < c.edges.length),
    (c.eraseEdge i).Fits c.edges[i].source c.edges[i].target :=
  ⟨fun h _ hi => h.fits_erase hi, Sound.of_fits_erase⟩

theorem sound_iff : c.Sound ↔
    (∀ e ∈ c.edges, e.source ≠ "" ∧ e.target ≠ "" ∧ c.Matches e.source e.target) ∧
      (c.edges.Pairwise fun e e' => (e.source, e.target) ≠ (e'.source, e'.target)) ∧
      ∀ id, ¬ TransGen c.Feeds id id := by
  constructor
  · intro h
    exact ⟨fun e he => ⟨(h.named e he).1, (h.named e he).2, h.kinds e he⟩, h.simple, h.acyclic⟩
  · rintro ⟨hends, hsimple, hacyclic⟩
    exact ⟨hacyclic, hsimple, fun e he => (hends e he).2.2, fun e he => ⟨(hends e he).1, (hends e he).2.1⟩⟩

end Canvas

/-- Edges are drawn by the check (`acceptsInTurn`) in one order exactly if in every order, if each of them is accepted
next to all the others, and if all of them are in order: ends that match (`Matches`), no pair twice, no cycle of
`Feeds`. What is accepted is accepted next to fewer edges, too. -/
theorem drawn_in_any_order (ns : List (Node P)) (es : List Edge) :
    [(⟨ns, []⟩ : Canvas P).acceptsInTurn es = true,
      ∀ es', es'.Perm es → (⟨ns, []⟩ : Canvas P).acceptsInTurn es' = true,
      ∀ i (hi : i < es.length), (⟨ns, es.eraseIdx i⟩ : Canvas P).accepts es[i].connection = true,
      (∀ e ∈ es, e.source ≠ "" ∧ e.target ≠ "" ∧ (⟨ns, es⟩ : Canvas P).Matches e.source e.target) ∧
        (es.Pairwise fun e e' => (e.source, e.target) ≠ (e'.source, e'.target)) ∧
        ∀ id, ¬ TransGen (⟨ns, es⟩ : Canvas P).Feeds id id].TFAE ∧
    ∀ (es' : List Edge) (w : Connection), es' ⊆ es →
      (⟨ns, es⟩ : Canvas P).accepts w = true → (⟨ns, es'⟩ : Canvas P).accepts w = true := by
  have hturn : ∀ es', (⟨ns, []⟩ : Canvas P).acceptsInTurn es' = true ↔ (⟨ns, es'⟩ : Canvas P).Sound :=
    fun es' => Canvas.drawn_iff_sound (c := ⟨ns, es'⟩)
  constructor
  · tfae_have 1 ↔ 4 := (hturn es).trans Canvas.sound_iff
    tfae_have 1 → 2 := fun h es' hes => (hturn es').2 (((hturn es).1 h).perm hes)
    tfae_have 2 → 1 := fun h => h es (.refl es)
    tfae_have 1 ↔ 3 := by
      rw [hturn, Canvas.sound_iff_fits_erase]
      exact forall₂_congr fun i hi => Canvas.accepts_connection_iff.symm
    tfae_finish
  · intro es' w hes h
    obtain ⟨s, t, hs, ht, hfit⟩ := Canvas.accepts_iff.1 h
    exact Canvas.accepts_iff.2 ⟨s, t, hs, ht, hfit.of_subset hes⟩

/-- A condition that feeds a badge through two gates. Its wires can be drawn from the badge on as well,
and the gates can be joined, with all wires there or with those of one gate alone. -/
theorem drawn_in_any_order_diamond :
    ∃ (c : Canvas Unit) (w : Connection), c.Drawn ∧ c.edges.length = 4 ∧
      ({ c with edges := [] } : Canvas Unit).acceptsInTurn c.edges.reverse = true ∧
      (∀ id, ¬ TransGen c.Feeds id id) ∧ c.accepts w = true ∧
      ({ c with edges := c.edges.take 2 } : Canvas Unit).accepts w = true := by
  let c : Canvas Unit :=
    { nodes := [⟨"gold", (), .badge ⟨"GOLD", none, 1⟩⟩, ⟨"any", (), .logic .or⟩, ⟨"all", (), .logic .and⟩,
        ⟨"member", (), .condition ⟨"member", .equal, .single (.bool true)⟩⟩]
      edges := [{ id := "e0", source := "member", target := "any" },
        { id := "e1", source := "any", target := "gold" },
        { id := "e2", source := "member", target := "all" },
        { id := "e3", source := "all", target := "gold" }] }
  let w : Connection := { source := some "any", target := some "all" }
  have hdrawn : c.Drawn := by
    unfold Canvas.Drawn
    repeat unfold Canvas.acceptsInTurn
    simp only [Canvas.accepts, Canvas.check, Canvas.index_eq_scan]
    cbv
  have hw : c.accepts w = true := by
    simp only [Canvas.accepts, Canvas.check, Canvas.index_eq_scan]
    cbv
  obtain ⟨hequiv, hfewer⟩ := drawn_in_any_order c.nodes c.edges
  have hany := (hequiv.out 0 1).1 hdrawn
  have horder := (hequiv.out 0 3).1 hdrawn
  exact ⟨c, w, hdrawn, rfl, hany _ c.edges.reverse_perm, horder.2.2, hw,
    hfewer _ w (List.take_subset 2 c.edges) hw⟩

end BadgeRules
