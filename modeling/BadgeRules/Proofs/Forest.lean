import Mathlib.Data.List.Perm.Basic
import BadgeRules.Proofs.Occurrences

/-!
# Forests

On a forest every condition and every logic node has one edge to leave by. Then what is upstream of the
badges comes up once: an edge is passed as often as its target occurs (`count_passed`), and a node
occurs as often as the edge that leaves it is passed, so both numbers are the same all the way down to
a badge, which occurs once (`count_ids_occurrences`). The occurrences are the nodes and the edges that
are passed are the edges (`occurrences_perm`, `passed_perm`).
-/

namespace BadgeRules
open Relation

variable {P : Type} {c : Canvas P}

theorem sublist_flatMap {α β : Type} (f : α → List β) {l : List α} {a : α} (h : a ∈ l) :
    (f a).Sublist (l.flatMap f) := by
  rw [List.flatMap]
  exact List.sublist_flatten_of_mem (List.mem_map_of_mem h)

namespace Canvas

/-! ### Ends of edges -/

namespace Sound

theorem source (hs : c.Sound) {e : Edge} (he : e ∈ c.edges) :
    ∃ n, c.node? e.source = some n ∧ (n.kind? = some .condition ∨ n.kind? = some .logic) := by
  obtain ⟨k, l, hk, -, hkl⟩ := hs.kinds e he
  rw [kindOf?_index] at hk
  obtain ⟨n, hn, hnk⟩ := Option.bind_eq_some_iff.1 hk
  refine ⟨n, hn, ?_⟩
  cases k with
  | condition => exact .inl hnk
  | logic => exact .inr hnk
  | badge => cases l <;> cases hkl

theorem target (hs : c.Sound) {e : Edge} (he : e ∈ c.edges) :
    ∃ n, c.node? e.target = some n ∧ n.kind? ≠ some .condition := by
  obtain ⟨k, l, -, hl, hkl⟩ := hs.kinds e he
  rw [kindOf?_index] at hl
  obtain ⟨n, hn, hnl⟩ := Option.bind_eq_some_iff.1 hl
  refine ⟨n, hn, fun hc => ?_⟩
  rw [hnl, Option.some_inj] at hc
  subst hc; cases k <;> cases hkl

theorem not_skipped (hs : c.Sound) {e : Edge} (he : e ∈ c.edges)
    (htest : ∀ t, c.payload? e.source ≠ some (.condition t))
    (hgate : ∀ op, c.payload? e.source ≠ some (.logic op)) : False := by
  obtain ⟨n, hn, hk⟩ := hs.source he
  rw [payload?, hn, Option.map_some] at htest hgate
  rw [Node.kind?] at hk
  cases hp : n.payload with
  | condition t => exact htest t (by rw [hp])
  | logic op => exact hgate op (by rw [hp])
  | badge a => rw [hp] at hk; rcases hk with hk | hk <;> cases hk
  | unknown => rw [hp] at hk; rcases hk with hk | hk <;> cases hk

theorem incoming_condition (hs : c.Sound) {id : String} {t : Comparison}
    (hp : c.payload? id = some (.condition t)) : c.incoming id = [] := by
  refine List.eq_nil_iff_forall_not_mem.2 fun e he => ?_
  obtain ⟨hmem, rfl⟩ := mem_incoming.1 he
  obtain ⟨n, hn, hk⟩ := hs.target hmem
  rw [payload?, hn, Option.map_some, Option.some_inj] at hp
  exact hk (by rw [Node.kind?, hp]; rfl)

theorem edges_nodup (hs : c.Sound) : c.edges.Nodup :=
  hs.simple.imp fun h he => h (by rw [he])

end Sound

/-! ### What is passed -/

section Passed

variable {walk : String → List Edge} {es ws : List Edge} {fs : List Formula}

theorem Unfolds.passes (hs : c.Sound) (h : Unfolds c es fs ws) (hes : es ⊆ c.edges) : es.Sublist ws := by
  induction h with
  | nil => exact .slnil
  | skip htest hgate _ _ => exact (hs.not_skipped (hes List.mem_cons_self) htest hgate).elim
  | test _ _ ih => exact (ih (List.cons_subset.1 hes).2).cons_cons _
  | gate _ _ _ _ ih =>
    have hrest := ih (List.cons_subset.1 hes).2
    exact (hrest.trans (List.sublist_append_right _ _)).cons_cons _

/-- After an edge everything upstream of it is passed. -/
theorem Unfolds.passes_upstream (hs : c.Sound) (hw : c.Walked walk) (h : Unfolds c es fs ws) :
    ∀ w ∈ ws, (w :: walk w.source).Sublist ws := by
  induction h with
  | nil => exact fun _ hw => (List.not_mem_nil hw).elim
  | skip _ _ _ ih => exact ih
  | @test e t es ws fs hp _ ih =>
    intro w hmem
    rcases List.mem_cons.1 hmem with rfl | hmem
    · obtain ⟨gs, hgs⟩ := hw w.source
      rw [hs.incoming_condition hp] at hgs
      rw [(hgs.unique .nil).2]
      exact (List.nil_sublist _).cons_cons _
    · exact (ih w hmem).cons _
  | @gate e op es us ws gs fs _ up _ ihup ih =>
    intro w hmem
    rcases List.mem_cons.1 hmem with rfl | hmem
    · obtain ⟨gs', hgs⟩ := hw w.source
      -- `walk` unfolds what the gate unfolded
      rw [(hgs.unique up).2]
      exact (List.sublist_append_left _ _).cons_cons _
    rcases List.mem_append.1 hmem with hmem | hmem
    · exact ((ihup w hmem).trans (List.sublist_append_left _ _)).cons _
    · exact ((ih w hmem).trans (List.sublist_append_right _ _)).cons _

theorem count_incoming (hs : c.Sound) {e : Edge} (he : e ∈ c.edges) (id : String) :
    (c.incoming id).count e = if id = e.target then 1 else 0 := by
  split
  · rename_i hid
    exact List.count_eq_one_of_mem (hs.edges_nodup.filter _) (mem_incoming.2 ⟨he, hid.symm⟩)
  · rename_i hid
    exact List.count_eq_zero.2 fun hmem => hid (mem_incoming.1 hmem).2.symm

/-- An edge is passed where its target is the source of an edge that is passed, and where it is
followed to begin with. -/
theorem Unfolds.count_passed (hs : c.Sound) (h : Unfolds c es fs ws) (hes : es ⊆ c.edges) {e : Edge}
    (he : e ∈ c.edges) : ws.count e = es.count e + (ws.map Edge.source).count e.target := by
  induction h with
  | nil => rfl
  | skip htest hgate _ _ => exact (hs.not_skipped (hes List.mem_cons_self) htest hgate).elim
  | @test e' t es ws fs hp _ ih =>
    have hrest := ih (List.cons_subset.1 hes).2
    have hin := count_incoming hs he e'.source
    rw [hs.incoming_condition hp, List.count_nil] at hin
    -- no edge leads into a condition
    have hne : e'.source ≠ e.target := fun h => by rw [if_pos h] at hin; cases hin
    rw [List.map_cons, List.count_cons_of_ne hne, List.count_cons, List.count_cons, hrest]
    omega
  | @gate e' op es us ws gs fs _ _ _ ihup ih =>
    have hrest := ih (List.cons_subset.1 hes).2
    have hup := ihup (c.incoming_subset e'.source)
    rw [count_incoming hs he] at hup
    simp only [List.map_cons, List.map_append, List.count_cons, List.count_append, hrest, hup, beq_iff_eq]
    omega

/-- The edges that are passed from the badges on. -/
def passed (c : Canvas P) (walk : String → List Edge) : List Edge :=
  (c.ofKind .badge).flatMap fun b => walk b.id

theorem Walked.passed_subset (hw : c.Walked walk) : c.passed walk ⊆ c.edges := by
  intro w hmem
  obtain ⟨b, -, hmem⟩ := List.mem_flatMap.1 hmem
  obtain ⟨fs, hfs⟩ := hw b.id
  exact (hfs.upstream (c.incoming_subset b.id) w hmem).1

/-- A node with one edge to leave by comes up as often as its edge is passed. -/
theorem Walked.count_sources (hw : c.Walked walk) {id : String} {e : Edge} (he : c.outgoing id = [e]) :
    ((c.passed walk).map Edge.source).count id = (c.passed walk).count e := by
  have hout : ∀ w ∈ c.edges, w.source = id ↔ w = e := by
    intro w hmem
    rw [← List.mem_singleton (a := w), ← he, mem_outgoing]
    exact ⟨fun h => ⟨hmem, h⟩, fun h => h.2⟩
  rw [List.count_eq_countP, List.count_eq_countP, List.countP_map]
  exact List.countP_congr fun w hmem => by simpa using hout w (hw.passed_subset hmem)

namespace Sound

variable (hs : c.Sound) (hw : c.Walked walk)
include hs hw

theorem ids_occurrences : (c.occurrences walk).map (·.id) =
    (c.ofKind .badge).flatMap fun b => b.id :: (walk b.id).map Edge.source := by
  rw [occurrences, List.map_flatMap]
  refine List.flatMap_congr fun b hb => ?_
  rw [List.map_cons, List.map_filterMap, ← List.filterMap_eq_map]
  refine congrArg _ (List.filterMap_congr fun w hmem => ?_)
  obtain ⟨n, hn, -⟩ := hs.source (hw.passed_subset (List.mem_flatMap.2 ⟨b, hb, hmem⟩))
  rw [hn, Option.map_some, Function.comp_apply]
  exact congrArg some (id_of_node? hn)

theorem ids_occurrences_perm :
    ((c.occurrences walk).map (·.id)).Perm
      ((c.ofKind .badge).map (·.id) ++ (c.passed walk).map Edge.source) := by
  rw [hs.ids_occurrences hw, passed, List.map_flatMap]
  exact (List.map_append_flatMap_perm _ _ _).symm

/-- An edge is passed once for each occurrence of its target. -/
theorem count_passed {e : Edge} (he : e ∈ c.edges) :
    (c.passed walk).count e = ((c.occurrences walk).map (·.id)).count e.target := by
  rw [hs.ids_occurrences hw, passed]
  induction c.ofKind .badge with
  | nil => rfl
  | cons b bs ih =>
    obtain ⟨fs, hfs⟩ := hw b.id
    have hb := hfs.count_passed hs (c.incoming_subset b.id) he
    rw [count_incoming hs he] at hb
    simp only [List.flatMap_cons, List.count_append, List.count_cons, ih, hb, beq_iff_eq]
    omega

/-- Less is upstream of an edge's source than of its target. -/
theorem walk_shorter {e : Edge} (he : e ∈ c.edges) : (walk e.source).length < (walk e.target).length := by
  obtain ⟨fs, hfs⟩ := hw e.target
  have hmem := (hfs.passes hs (c.incoming_subset e.target)).subset (mem_incoming.2 ⟨he, rfl⟩)
  exact (hfs.passes_upstream hs hw e hmem).length_le

end Sound

end Passed

/-! ### One edge to leave by -/

/-- Nodes are of known kinds and have ids of their own, the edges could be drawn in their order, and
every node that may feed others feeds one. -/
structure Forest (c : Canvas P) : Prop where
  distinct : c.ids.Nodup
  known : ∀ n ∈ c.nodes, n.kind? ≠ none
  drawn : c.Drawn
  single : ∀ n ∈ c.nodes, n.kind? = some .condition ∨ n.kind? = some .logic → (c.outgoing n.id).length = 1

theorem eq_of_ids_nodup (h : c.ids.Nodup) {n m : Node P} (hn : n ∈ c.nodes) (hm : m ∈ c.nodes)
    (hid : n.id = m.id) : n = m := by
  have := node?_of_mem h hn
  rw [hid, node?_of_mem h hm] at this
  exact (Option.some_inj.1 this).symm

namespace Forest

variable {walk : String → List Edge}

section Known

variable (hf : c.Forest)
include hf

theorem sound : c.Sound := hf.drawn.sound

theorem feeds_of_not_badge {n : Node P} (hn : n ∈ c.nodes) (hk : n.kind? ≠ some .badge) :
    ∃ e, c.outgoing n.id = [e] := by
  refine List.length_eq_one_iff.1 (hf.single n hn ?_)
  cases h : n.kind? with
  | none => exact absurd h (hf.known n hn)
  | some k =>
    cases k with
    | condition => exact .inl rfl
    | logic => exact .inr rfl
    | badge => exact absurd h hk

theorem count_badges {n : Node P} (hn : n ∈ c.nodes) :
    ((c.ofKind .badge).map (·.id)).count n.id = if n.kind? = some .badge then 1 else 0 := by
  have hnodup : ((c.ofKind .badge).map (·.id)).Nodup :=
    hf.distinct.sublist (List.filter_sublist.map _)
  split
  · rename_i hk
    exact List.count_eq_one_of_mem hnodup (List.mem_map_of_mem (List.mem_filter.2 ⟨hn, by simpa using hk⟩))
  · rename_i hk
    refine List.count_eq_zero.2 fun hmem => hk ?_
    obtain ⟨m, hm, hid⟩ := List.mem_map.1 hmem
    obtain ⟨hm, hmk⟩ := List.mem_filter.1 hm
    obtain rfl := eq_of_ids_nodup hf.distinct hm hn hid
    simpa using hmk

end Known

variable (hf : c.Forest) (hw : c.Walked walk)
include hf hw

/-- Every node occurs once. -/
theorem count_ids_occurrences {n : Node P} (hn : n ∈ c.nodes) :
    ((c.occurrences walk).map (·.id)).count n.id = 1 := by
  let bound := (c.edges.flatMap fun e => walk e.target).length
  -- down to a badge, more and more is upstream
  induction hk : bound - (walk n.id).length using Nat.strongRecOn generalizing n with
  | ind k ih =>
    subst hk
    have hperm := (hf.sound.ids_occurrences_perm hw).count_eq n.id
    rw [List.count_append, hf.count_badges hn] at hperm
    by_cases hkind : n.kind? = some .badge
    · have hnone : ((c.passed walk).map Edge.source).count n.id = 0 := by
        refine List.count_eq_zero.2 fun hmem => ?_
        obtain ⟨w, hmem, hid⟩ := List.mem_map.1 hmem
        obtain ⟨m, hm, hmk⟩ := hf.sound.source (hw.passed_subset hmem)
        rw [hid, node?_of_mem hf.distinct hn] at hm
        obtain rfl := Option.some_inj.1 hm
        rcases hmk with hmk | hmk <;> · rw [hkind] at hmk; cases hmk
      rw [hperm, if_pos hkind, hnone]
    · obtain ⟨e, he⟩ := hf.feeds_of_not_badge hn hkind
      obtain ⟨hec, hes⟩ := mem_outgoing.1 (he ▸ List.mem_singleton_self e : e ∈ c.outgoing n.id)
      obtain ⟨m, hm, -⟩ := hf.sound.target hec
      have hmid : m.id = e.target := id_of_node? hm
      have hshort := hf.sound.walk_shorter hw hec
      have hbound : (walk e.target).length ≤ bound :=
        (sublist_flatMap (fun e : Edge => walk e.target) hec).length_le
      rw [hperm, if_neg hkind, Nat.zero_add, hw.count_sources he, hf.sound.count_passed hw hec, ← hmid]
      refine ih _ ?_ (mem_of_node? hm) rfl
      rw [hmid]
      rw [hes] at hshort
      omega

theorem ids_nodup : ((c.occurrences walk).map (·.id)).Nodup := by
  refine List.nodup_iff_count_eq_one.2 fun id hid => ?_
  obtain ⟨n, hn, rfl⟩ := List.mem_map.1 hid
  exact hf.count_ids_occurrences hw (c.occurrences_subset walk hn)

theorem mem_occurrences {n : Node P} (hn : n ∈ c.nodes) : n ∈ c.occurrences walk := by
  have hpos : 0 < ((c.occurrences walk).map (·.id)).count n.id := by
    rw [hf.count_ids_occurrences hw hn]; exact Nat.one_pos
  obtain ⟨m, hm, hid⟩ := List.mem_map.1 (List.count_pos_iff.1 hpos)
  rwa [← eq_of_ids_nodup hf.distinct (c.occurrences_subset walk hm) hn hid]

/-- The nodes occur once each. -/
theorem occurrences_perm : (c.occurrences walk).Perm c.nodes := by
  have hocc : (c.occurrences walk).Nodup := List.Nodup.of_map _ (hf.ids_nodup hw)
  have hnodes : c.nodes.Nodup := List.Nodup.of_map _ hf.distinct
  exact (List.perm_ext_iff_of_nodup hocc hnodes).2 fun n =>
    ⟨fun h => c.occurrences_subset walk h, hf.mem_occurrences hw⟩

/-- The edges are passed once each. -/
theorem passed_perm : (c.passed walk).Perm c.edges := by
  refine List.perm_iff_count.2 fun e => ?_
  by_cases he : e ∈ c.edges
  · obtain ⟨m, hm, -⟩ := hf.sound.target he
    rw [hf.sound.count_passed hw he, ← id_of_node? hm, hf.count_ids_occurrences hw (mem_of_node? hm),
      List.count_eq_one_of_mem hf.sound.edges_nodup he]
  · rw [List.count_eq_zero.2 he, List.count_eq_zero.2 fun h => he (hw.passed_subset h)]

/-- The edges into a node are passed in their order. -/
theorem passed_into {n : Node P} (hn : n ∈ c.nodes) :
    (c.passed walk).filter (·.target == n.id) = c.incoming n.id := by
  have hwalk : (walk n.id).Sublist (c.passed walk) := by
    have hmem := List.mem_map_of_mem (f := fun m : Node P => m.id) (hf.mem_occurrences hw hn)
    rcases List.mem_append.1 ((hf.sound.ids_occurrences_perm hw).subset hmem) with hmem | hmem
    · obtain ⟨b, hb, hid⟩ := List.mem_map.1 hmem
      rw [← hid]
      exact sublist_flatMap (fun b : Node P => walk b.id) hb
    · obtain ⟨w, hmem, hid⟩ := List.mem_map.1 hmem
      obtain ⟨b, hb, hmem⟩ := List.mem_flatMap.1 hmem
      obtain ⟨fs, hfs⟩ := hw b.id
      rw [← hid]
      have hup := (List.sublist_cons_self _ _).trans (hfs.passes_upstream hf.sound hw w hmem)
      exact hup.trans (sublist_flatMap (fun b : Node P => walk b.id) hb)
  obtain ⟨fs, hfs⟩ := hw n.id
  have hsub := ((hfs.passes hf.sound (c.incoming_subset n.id)).trans hwalk).filter (·.target == n.id)
  rw [incoming, List.filter_filter] at hsub
  simp only [Bool.and_self] at hsub
  -- a sublist with as many edges
  refine (hsub.eq_of_length ?_).symm
  exact ((hf.passed_perm hw).filter _).length_eq.symm

end Forest

end Canvas

end BadgeRules
