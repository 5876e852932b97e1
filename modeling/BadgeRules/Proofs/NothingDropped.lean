import Mathlib.Data.List.Permutation
import BadgeRules.Proofs.Forest
import BadgeRules.Proofs.Tracing

/-!
# Nothing that was drawn is dropped

Compiling drops an edge from a node that is missing, or a badge, or on the branch already, and passes
over an edge from a node of unknown kind. On a sound canvas there is no such edge: the check of
connections saw to the kinds, and there is no cycle. So nothing is reported (`Sound.events_branch`), and
as many trees arrive at a node as edges (`Sound.length_roots`), wherever in a tree it occurs
(`Sound.operands_treeAt`).
-/

namespace BadgeRules
open Relation

variable {P : Type} {c : Canvas P}

namespace Canvas

/-! ### Reports -/

/-- An edge is followed without a report, as long as nothing upstream of it is on the branch. -/
theorem Sound.events_branch (hs : c.Sound) {e : Edge} (he : e ∈ c.edges) {fresh : List String}
    (hfresh : ∀ x ∈ c.ids, ReflTransGen c.Feeds x e.source → x ∈ fresh) :
    (c.index.branch fresh e).events = [] := by
  induction hk : fresh.length using Nat.strongRecOn generalizing e fresh with
  | ind k ih =>
    subst hk
    obtain ⟨n, hn, hkind⟩ := hs.source he
    have hf : e.source ∈ fresh := hfresh _ (mem_ids_of_node? hn) .refl
    rw [branch_fresh hn hf]
    rw [Node.kind?] at hkind
    cases hp : n.payload with
    | condition t => rfl
    | logic op =>
      simp only [Branch.events, Branch.eventsOf_eq_flatMap, List.flatMap_map]
      apply List.flatMap_eq_nil_iff.2
      intro e' he'
      obtain ⟨he', ht⟩ := mem_incoming.1 he'
      have hstep : c.Feeds e'.source e.source := ⟨e', he', rfl, ht⟩
      -- what is upstream of the next edge is not the node that was just passed
      refine ih _ (length_without_lt hf) he' (fun x hx hp => ?_) rfl
      refine mem_without.2 ⟨hfresh x hx (hp.tail hstep), ?_⟩
      rintro rfl
      exact hs.acyclic _ (.tail' hp hstep)
    | badge a => rw [hp] at hkind; rcases hkind with hkind | hkind <;> cases hkind
    | unknown => rw [hp] at hkind; rcases hkind with hkind | hkind <;> cases hkind

theorem Sound.dropped_compile (hs : c.Sound) (id name : String) (description : Option String) :
    (c.compile id name description).dropped = [] := by
  apply List.flatMap_eq_nil_iff.2
  intro b hb
  rw [badges_eq_award?] at hb
  obtain ⟨n, hn, hb⟩ := List.mem_filterMap.1 hb
  obtain ⟨a, -, rfl⟩ := Option.map_eq_some_iff.1 hb
  simp only [branches, index_incoming, List.flatMap_map]
  apply List.flatMap_eq_nil_iff.2
  intro e he
  obtain ⟨hec, ht⟩ := mem_incoming.1 he
  refine hs.events_branch hec fun x hx hp => mem_without.2 ⟨hx, ?_⟩
  rintro rfl
  exact hs.acyclic _ (.tail' hp ⟨e, hec, rfl, ht⟩)

/-! ### As many trees as edges -/

theorem Sound.length_unfolds (hs : c.Sound) {es ws : List Edge} {fs : List Formula}
    (h : Unfolds c es fs ws) (hes : es ⊆ c.edges) : fs.length = es.length := by
  induction h with
  | nil => rfl
  | skip htest hgate _ _ => exact (hs.not_skipped (hes List.mem_cons_self) htest hgate).elim
  | test _ _ ih => rw [List.length_cons, List.length_cons, ih (List.cons_subset.1 hes).2]
  | gate _ _ _ _ ih => rw [List.length_cons, List.length_cons, ih (List.cons_subset.1 hes).2]

theorem Sound.length_roots (hs : c.Sound) (id : String) : (c.roots id).length = (c.incoming id).length := by
  obtain ⟨ws, hws, -⟩ := hs.acyclic.unfolds_roots id
  exact hs.length_unfolds hws (c.incoming_subset id)

theorem Sound.roots_condition (hs : c.Sound) {id : String} {t : Comparison}
    (hp : c.payload? id = some (.condition t)) : c.roots id = [] := by
  rw [← List.length_eq_zero_iff, hs.length_roots, hs.incoming_condition hp, List.length_nil]

/-- What arrives at a node does not depend on where the branch has come through. -/
theorem Acyclic.rootsAlong_eq (hc : c.Acyclic) {xs : List String} {x : String}
    (hxs : ∀ y ∈ xs, ReflTransGen c.Feeds x y) : c.rootsAlong xs x = c.roots x := by
  have hfresh : ∀ y ∈ c.ids, TransGen c.Feeds y x → y ∈ c.unused xs := by
    intro y hy hp
    refine mem_unused.2 ⟨hy, fun hmem => ?_⟩
    exact hc y (hp.trans_left (hxs y hmem))
  obtain ⟨ws, hws, -⟩ := hc.unfolds_branches (fun e he => mem_incoming.1 he) hfresh
  exact (hc.roots_eq hws).symm

section Walk

variable {id : String} {w : List Nat}

/-- A walk leads back down to every id that it has come through. -/
theorem Extensible.downstream (h : c.Extensible id w) : ∀ x ∈ c.trail id w,
    ReflTransGen c.Feeds (c.tip id w) x := by
  induction w using List.reverseRecOn with
  | nil =>
    intro x hx
    rw [List.mem_singleton.1 hx]
    exact .refl
  | append_singleton w i ih =>
    intro x hx
    rcases h with hnil | ⟨h, -⟩
    · simp at hnil
    obtain ⟨hw, e, hi, ht, -⟩ := isWalk_concat_iff.1 h
    rw [tip_concat hi]
    rw [trail_concat hi] at hx
    rcases List.mem_append.1 hx with hx | hx
    · exact .head ⟨e, List.mem_of_getElem? hi, rfl, ht⟩ (ih hw x hx)
    · obtain rfl := List.mem_singleton.1 hx
      exact .refl

/-- The operands of a tree are the trees that arrive at its node. -/
theorem Sound.operands_treeAt (hs : c.Sound) (h : c.IsWalk id w) :
    (c.treeAt id w).operands = c.roots (c.tip id w) := by
  rcases h.tip_cases with ⟨t, hp, -⟩ | ⟨op, hp, hw⟩
  · rw [hs.roots_condition hp, treeAt, treeAlong, hp, Formula.operands]
  · rw [treeAt, treeAlong, hp]
    exact hs.acyclic.rootsAlong_eq hw.downstream

end Walk

/-- A canvas that was drawn by `Edit`s is compiled without a warning. The slot of a badge has a root for each edge that
arrives there, and a gate has an operand for each edge that arrives at its node, at the end of every walk
(`Traced`). -/
theorem edits_drop_nothing {c' : Canvas P} (h : c.edges = []) (he : ReflTransGen Edit c c')
    (id name : String) (description : Option String) :
    (∀ e ∈ (c'.compile id name description).events, e.level ≠ .warn) ∧
      List.Forall₂ (fun s b => s.roots.length = (c'.incoming b.id).length ∧
          ∃ walks tree, c'.Traced b.id s.roots walks tree ∧
            ∀ w ∈ walks, ∀ op fs, tree w = .gate op fs →
              fs.length = (c'.incoming (c'.tip b.id w)).length)
        (c'.compile id name description).rule.slots (c'.ofKind .badge) := by
  have hs : c'.Sound := (Sound.of_edges_nil h).edits he
  constructor
  · intro e he
    rw [Compiled.events, hs.dropped_compile, List.nil_append, List.mem_singleton] at he
    rw [he]
    nofun
  · rw [slots_badges, List.forall₂_map_left_iff, List.forall₂_same]
    intro b hb
    have hid : b.id ∈ c'.ids := mem_ids_of_mem_ofKind hb
    rw [Slot.roots_ofRoots]
    refine ⟨hs.length_roots b.id, _, _, traced_roots hid, fun w hw op fs htree => ?_⟩
    have hops := hs.operands_treeAt (mem_walksFrom_nil.1 hw)
    rw [htree] at hops
    rw [← hs.length_roots, ← hops]
    rfl

/-- The gate `any` has its operands after a badge of the same id was added, and so has the badge. -/
theorem edits_drop_nothing_shadowed :
    ∃ c c' : Canvas Unit, c.edges = [] ∧ ReflTransGen Edit c c' ∧
      (c'.ofKind .badge).map (·.id) = ["gold", "any"] ∧ c'.edges.length = 3 ∧
      (∀ e ∈ (c'.compile "r" "R").events, e.level ≠ .warn) ∧
      List.Forall₂ (fun s b => s.roots.length = (c'.incoming b.id).length ∧
          ∃ walks tree, c'.Traced b.id s.roots walks tree ∧
            ∀ w ∈ walks, ∀ op fs, tree w = .gate op fs →
              fs.length = (c'.incoming (c'.tip b.id w)).length)
        (c'.compile "r" "R").rule.slots (c'.ofKind .badge) := by
  let c : Canvas Unit :=
    ⟨[⟨"gold", (), .badge ⟨"GOLD", none, 1⟩⟩, ⟨"any", (), .logic .or⟩,
      ⟨"member", (), .condition ⟨"member", .equal, .single (.bool true)⟩⟩], []⟩
  let e₁ : Edge := { id := "e1", source := "any", target := "gold" }
  let e₂ : Edge := { id := "e2", source := "member", target := "any" }
  let e₃ : Edge := { id := "e3", source := "member", target := "gold" }
  let c₁ := (c.addEdge e₁).addEdge e₂
  let c₂ := c₁.addNode ⟨"any", (), .badge ⟨"SILVER", none, 1⟩⟩
  have hturn : c.acceptsInTurn [e₁, e₂] = true := by
    repeat unfold acceptsInTurn
    simp only [accepts, check, index_eq_scan]
    cbv
  have hfit : c₂.connect e₃ = .ok (c₂.addEdge e₃) := by
    refine connect_eq_ok_iff.2 ⟨accepts_connection_iff.1 ?_, rfl⟩
    unfold accepts check
    rw [index_eq_scan]
    cbv
  have hrun : ReflTransGen Edit c (c₂.addEdge e₃) :=
    ((edits_of_acceptsInTurn hturn).tail (.addNode c₁ _)).tail (.connect hfit)
  exact ⟨c, c₂.addEdge e₃, rfl, hrun, rfl, rfl, edits_drop_nothing rfl hrun "r" "R" none⟩

end Canvas

end BadgeRules
