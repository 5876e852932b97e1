import BadgeRules.Canvas.Index
import BadgeRules.Canvas.Reach
import BadgeRules.Event
import BadgeRules.Rule.Basic

/-!
# Branches

`Index.branch` follows an edge back to its producer and from there on, upstream. Every edge on the
way has an outcome, and the tree of outcomes (`Branch`) tells everything that a conversion needs: the
conditions, the nodes they come from, and the edges that were dropped.
-/

namespace BadgeRules

variable {P : Type}

/-- The outcome of following an edge back to its producer. -/
inductive Branch (P : Type)
  | test (node : Node P) (comparison : Comparison)
  | gate (node : Node P) (op : Connective) (branches : List (Branch P))
  | dropped (cause : DropCause) (edge : Edge)
  /-- The producer is of unknown kind, and the edge is passed over. -/
  | ignored (edge : Edge)

/-- Follows an edge back. The ids of `fresh` are those of nodes that are not on the branch yet: a
node may be on several branches, but not twice on one. -/
def Index.branch (ix : Index P) (fresh : List String) (e : Edge) : Branch P :=
  match ix.node? e.source with
  | none => .dropped .missing e
  | some n =>
    if _h : e.source ∈ fresh then
      match n.payload with
      | .condition c => .test n c
      | .logic op =>
        .gate n op ((ix.incoming e.source).map fun e' => ix.branch (without e.source fresh) e')
      | .badge _ => .dropped .badge e
      | .unknown => .ignored e
    else .dropped .cycle e
termination_by fresh.length
decreasing_by exact length_without_lt _h

namespace Branch

/-- The tree of conditions on a branch, if the branch was not dropped. -/
def formula? : Branch P → Option Formula
  | .test _ c => some (.test c)
  | .gate _ op bs => some (.gate op (formulas bs))
  | .dropped .. => none
  | .ignored _ => none
where
  formulas : List (Branch P) → List Formula
    | [] => []
    | b :: bs => b.formula?.toList ++ formulas bs

/-- The nodes on a branch, a consumer before its producers. -/
def nodes : Branch P → List (Node P)
  | .test n _ => [n]
  | .gate n _ bs => n :: nodesOf bs
  | .dropped .. => []
  | .ignored _ => []
where
  nodesOf : List (Branch P) → List (Node P)
    | [] => []
    | b :: bs => b.nodes ++ nodesOf bs

/-- The reports of dropped edges, in the order they were come to. -/
def events : Branch P → List Event
  | .test .. => []
  | .gate _ _ bs => eventsOf bs
  | .dropped cause e => [.dropped cause e.source e.target]
  | .ignored _ => []
where
  eventsOf : List (Branch P) → List Event
    | [] => []
    | b :: bs => b.events ++ eventsOf bs

theorem formulas_eq_filterMap (bs : List (Branch P)) :
    formula?.formulas bs = bs.filterMap formula? := by
  induction bs with
  | nil => rfl
  | cons b bs ih => cases h : b.formula? <;> simp [formula?.formulas, ih, h]

theorem nodesOf_eq_flatMap (bs : List (Branch P)) : nodes.nodesOf bs = bs.flatMap nodes := by
  induction bs with
  | nil => rfl
  | cons b bs ih => simp [nodes.nodesOf, ih]

theorem eventsOf_eq_flatMap (bs : List (Branch P)) : events.eventsOf bs = bs.flatMap events := by
  induction bs with
  | nil => rfl
  | cons b bs ih => simp [events.eventsOf, ih]

end Branch

end BadgeRules
