import BadgeRules.Canvas.Branch

/-!
# From canvas to rule

Every badge node becomes an award, and the edges that arrive at it become the roots of its slot. The
canvas is taken as it is: an edge that leads nowhere, or back into its own branch, is reported and
left out.
-/

namespace BadgeRules

variable {P : Type}

/-- A rule as it was compiled, with the reports of dropped edges. -/
structure Compiled (P : Type) where
  rule : Rule P
  dropped : List Event

def Compiled.events (c : Compiled P) : List Event :=
  c.dropped ++
    [.compiled c.rule.id c.rule.awards.length (c.rule.slots.filter Slot.isEmpty).length]

namespace Canvas

def ids (c : Canvas P) : List String := c.nodes.map (·.id)

def branches (c : Canvas P) (ix : Index P) (id : String) : List (Branch P) :=
  (ix.incoming id).map (ix.branch (without id c.ids))

/-- The badge nodes in order, with what they award and the branches that arrive there. -/
def badges (c : Canvas P) (ix : Index P) : List (Node P × Award × List (Branch P)) :=
  c.nodes.filterMap fun n =>
    match n.payload with
    | .badge a => some (n, a, c.branches ix n.id)
    | _ => none

/-- The nodes that are come to: every badge followed by the nodes of its branches, one for each
place in a tree. -/
def visited (badges : List (Node P × Award × List (Branch P))) : List (Node P) :=
  badges.flatMap fun (n, _, bs) => n :: bs.flatMap Branch.nodes

def strays (c : Canvas P) (badges : List (Node P × Award × List (Branch P))) : List (Node P) :=
  let ids := (visited badges).map (·.id)
  c.nodes.filter fun n => !ids.contains n.id

/-- Where nodes are placed, those that are come to in front. -/
def placements (c : Canvas P) (badges : List (Node P × Award × List (Branch P))) :
    List (Placement P) :=
  (visited badges ++ c.strays badges).map fun n => ⟨n.id, n.position⟩

def compile (c : Canvas P) (id name : String) (description : Option String := none) :
    Compiled P :=
  let badges := c.badges c.index
  { rule := {
      id, name, description
      slots := badges.map fun (_, _, bs) => .ofRoots (bs.filterMap Branch.formula?)
      awards := badges.map fun (_, a, _) => a
      layout := some (c.placements badges) }
    dropped := badges.flatMap fun (_, _, bs) => bs.flatMap Branch.events }

end Canvas

end BadgeRules
