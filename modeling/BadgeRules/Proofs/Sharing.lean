import BadgeRules.Proofs.NothingDropped

/-!
# Trees without a guard

On a canvas without cycles no edge can be followed upstream for ever (`Acyclic.wellFounded`), so the trees
can be defined by recursion along the edges, with no regard to the branch that they are on
(`Acyclic.unfold`). Compiling gives these trees. What arrives at a node is then a matter of its id alone,
and a node that feeds several others has the same tree at each of its places (`Acyclic.treeAt_eq`).
-/

namespace BadgeRules
open Relation

variable {P : Type} {c : Canvas P}

/-- The tree at a node, if the trees `operands` arrive there. -/
def Payload.tree? (p : Payload) (operands : List Formula) : Option Formula :=
  match p with
  | .condition t => some (.test t)
  | .logic op => some (.gate op operands)
  | .badge _ => none
  | .unknown => none

namespace Canvas

theorem Acyclic.wellFounded (hc : c.Acyclic) : WellFounded c.Feeds := by
  -- the ids of `fresh` are those that may still be come to
  have hacc : ∀ (fresh : List String) (x : String), (∀ y, TransGen c.Feeds y x → y ∈ fresh) → Acc c.Feeds x := by
    intro fresh
    induction hk : fresh.length using Nat.strongRecOn generalizing fresh with
    | ind k ih =>
      subst hk
      refine fun x hx => ⟨x, fun y hy => ?_⟩
      have hfresh : y ∈ fresh := hx y (.single hy)
      refine ih _ (length_without_lt hfresh) _ rfl y fun z hz => mem_without.2 ⟨hx z (hz.tail hy), ?_⟩
      rintro rfl
      exact hc _ hz
  refine ⟨fun x => hacc (c.edges.map Edge.source) x fun y hy => ?_⟩
  obtain ⟨z, ⟨e, he, rfl, -⟩, -⟩ := TransGen.head'_iff.1 hy
  exact List.mem_map_of_mem he

/-- The trees that arrive at an id: one for each edge from a condition or a logic node, in the order of the
edges. -/
def Acyclic.unfold (hc : c.Acyclic) (x : String) : List Formula :=
  (c.incoming x).attach.filterMap fun ⟨e, _he⟩ =>
    (c.payload? e.source).bind fun p => p.tree? (hc.unfold e.source)
termination_by hc.wellFounded.wrap x
decreasing_by
  obtain ⟨he, ht⟩ := mem_incoming.1 _he
  exact ⟨e, he, rfl, ht⟩

namespace Acyclic

variable (hc : c.Acyclic)
include hc

theorem unfold_eq (x : String) : hc.unfold x = (c.incoming x).filterMap fun e =>
    (c.payload? e.source).bind fun p => p.tree? (hc.unfold e.source) := by
  conv_rhs => rw [← List.attach_map_subtype_val (c.incoming x), List.filterMap_map]
  rw [Acyclic.unfold]
  rfl

theorem eq_of_unfolds {es ws : List Edge} {fs : List Formula} (h : c.Unfolds es fs ws) :
    fs = es.filterMap fun e => (c.payload? e.source).bind fun p => p.tree? (hc.unfold e.source) := by
  induction h with
  | nil => rfl
  | @skip e _ _ _ htest hgate _ ih =>
    have hnone : ((c.payload? e.source).bind fun p => p.tree? (hc.unfold e.source)) = none := by
      rcases hp : c.payload? e.source with _ | t | op | _ | _
      · rfl
      · exact absurd hp (htest t)
      · exact absurd hp (hgate op)
      · rfl
      · rfl
    simp only [List.filterMap_cons, hnone]
    exact ih
  | test hp _ ih => rw [List.filterMap_cons_some (by rw [hp]; rfl), ← ih]
  | gate hp _ _ ihup ih =>
    rw [← hc.unfold_eq] at ihup
    rw [List.filterMap_cons_some (by rw [hp]; rfl), ← ih, ihup]

/-- The guard against cycles is not seen. -/
theorem roots_eq_unfold (x : String) : c.roots x = hc.unfold x := by
  obtain ⟨ws, hws, -⟩ := hc.unfolds_roots x
  rw [hc.eq_of_unfolds hws, ← hc.unfold_eq]

/-- The tree at the end of a walk is that of the id there, whatever the way to it. -/
theorem treeAt_eq {id : String} {w : List Nat} (h : c.IsWalk id w) :
    some (c.treeAt id w) = (c.payload? (c.tip id w)).bind fun p => p.tree? (hc.unfold (c.tip id w)) := by
  rw [treeAt, treeAlong]
  rcases h.tip_cases with ⟨t, hp, -⟩ | ⟨op, hp, hw⟩
  · rw [hp]
    rfl
  · rw [hp, hc.rootsAlong_eq hw.downstream, hc.roots_eq_unfold]
    rfl

end Acyclic

/-- On an `Acyclic` canvas the roots of the slots are those of `Acyclic.unfold`, which has no guard against cycles. So
the trees (`treeAt`) at all ends of walks with the same `tip` are equal, under whatever badges. -/
theorem compile_eq_unfold (hc : c.Acyclic) (id name : String) (description : Option String) :
    (∀ x, hc.unfold x = (c.incoming x).filterMap fun e =>
        (c.payload? e.source).bind fun p => p.tree? (hc.unfold e.source)) ∧
      (c.compile id name description).rule.slots =
        (c.ofKind .badge).map (fun b => Slot.ofRoots (hc.unfold b.id)) ∧
      (c.compile id name description).rule.slots.map Slot.roots =
        (c.ofKind .badge).map (fun b => hc.unfold b.id) ∧
      ∀ b ∈ c.ofKind .badge,
        c.Traced b.id (hc.unfold b.id) (c.walksFrom b.id []) (c.treeAt b.id) ∧
        ∀ b' ∈ c.ofKind .badge, ∀ w w', c.IsWalk b.id w → c.IsWalk b'.id w' →
          c.tip b.id w = c.tip b'.id w' → c.treeAt b.id w = c.treeAt b'.id w' := by
  refine ⟨hc.unfold_eq, ?slots, ?roots, fun b hb => ⟨?traced, fun b' _ w w' hw hw' htip => ?shared⟩⟩
  case slots =>
    rw [slots_badges]
    simp only [hc.roots_eq_unfold]
  case roots =>
    rw [roots_badges]
    simp only [hc.roots_eq_unfold]
  case traced =>
    rw [← hc.roots_eq_unfold]
    exact traced_roots (mem_ids_of_mem_ofKind hb)
  case shared =>
    refine Option.some_inj.1 ?_
    rw [hc.treeAt_eq hw, hc.treeAt_eq hw', htip]

/-- A gate that feeds two badges, next to edges from an id without a node and from a note, and one that is
there twice. -/
theorem compile_eq_unfold_diamond :
    ∃ (c : Canvas Unit) (hc : c.Acyclic), c.edges.length = 8 ∧
      (c.compile "r" "R").rule.slots = (c.ofKind .badge).map (fun b => Slot.ofRoots (hc.unfold b.id)) ∧
      (c.compile "r" "R").rule.slots.map Slot.roots = (c.ofKind .badge).map (fun b => hc.unfold b.id) ∧
      c.IsWalk "gold" [0] ∧ c.IsWalk "silver" [1] ∧ c.treeAt "gold" [0] = c.treeAt "silver" [1] := by
  let gold : Node Unit := ⟨"gold", (), .badge ⟨"GOLD", none, 1⟩⟩
  let silver : Node Unit := ⟨"silver", (), .badge ⟨"SILVER", none, 1⟩⟩
  let c : Canvas Unit :=
    { nodes := [gold, silver, ⟨"any", (), .logic .or⟩, ⟨"all", (), .logic .and⟩, ⟨"note", (), .unknown⟩,
        ⟨"member", (), .condition ⟨"member", .equal, .single (.bool true)⟩⟩]
      edges := [{ id := "e0", source := "any", target := "gold" },
        { id := "e1", source := "any", target := "silver" },
        { id := "e2", source := "all", target := "any" },
        { id := "e3", source := "member", target := "any" },
        { id := "e4", source := "member", target := "all" },
        { id := "e5", source := "member", target := "all" },
        { id := "e6", source := "ghost", target := "any" },
        { id := "e7", source := "note", target := "all" }] }
  -- edges lead to ids that come earlier in this list
  let order : List String := ["gold", "silver", "any", "all", "member", "ghost", "note"]
  have hc : c.Acyclic := by
    have hstep : ∀ a b, c.Feeds a b → order.idxOf b < order.idxOf a := by
      rintro a b ⟨e, he, rfl, rfl⟩
      exact (by decide : ∀ e ∈ c.edges, order.idxOf e.target < order.idxOf e.source) e he
    intro id hid
    have hlt : ∀ a, TransGen c.Feeds a id → order.idxOf id < order.idxOf a := by
      intro a ha
      induction ha using TransGen.head_induction_on with
      | single hab => exact hstep _ _ hab
      | head hab _ ih => exact ih.trans (hstep _ _ hab)
    exact Nat.lt_irrefl _ (hlt id hid)
  have hgold : c.IsWalk "gold" [0] := by rw [isWalk_iff, index_eq_scan]; decide
  have hsilver : c.IsWalk "silver" [1] := by rw [isWalk_iff, index_eq_scan]; decide
  have hbadges : c.ofKind .badge = [gold, silver] := rfl
  obtain ⟨-, hslots, hroots, htrees⟩ := compile_eq_unfold hc "r" "R" none
  rw [hbadges] at htrees
  obtain ⟨-, hshared⟩ := htrees gold (by simp)
  exact ⟨c, hc, rfl, hslots, hroots, hgold, hsilver, hshared silver (by simp) _ _ hgold hsilver rfl⟩

end Canvas

end BadgeRules
