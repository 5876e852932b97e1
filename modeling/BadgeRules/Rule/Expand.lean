import BadgeRules.Event
import BadgeRules.Rule.Basic

/-!
# From rule to canvas

Expanding a rule makes a fresh node for every award and every node of its trees, and wires them up.
Nodes are numbered as they are made, a consumer before its producers. Edges are numbered when the
tree at their source is complete, so an edge has a larger number than the edges upstream of it.

Nodes are first put into the cells of a grid: badges in the last column, one row each, and every condition
and logic node in a row of its own, one column before its consumer. A `Grid` says where the cells lie.
-/

namespace BadgeRules

/-! ### The grid -/

/-- Rows of badges and rows of conditions are spaced differently. -/
inductive Cell
  | badge (column row : Nat)
  | tree (column row : Nat)
deriving DecidableEq, Repr

/-- Distances between columns and rows, and the corner where the grid starts. -/
structure Grid (α : Type) where
  columnSpacing : α
  rowSpacing : α
  badgeRowSpacing : α
  origin : Point α
deriving BEq

def Grid.standard : Grid Float := ⟨250, 100, 150, ⟨50, 50⟩⟩

instance floatNatCast : NatCast Float := ⟨Float.ofNat⟩

def Grid.place {α : Type} [Add α] [Mul α] [NatCast α] (g : Grid α) : Cell → Point α
  | .badge column row =>
    ⟨g.origin.x + (column : α) * g.columnSpacing, g.origin.y + (row : α) * g.badgeRowSpacing⟩
  | .tree column row =>
    ⟨g.origin.x + (column : α) * g.columnSpacing, g.origin.y + (row : α) * g.rowSpacing⟩

/-! ### Numbers and nodes -/

/-- The numbers that are free next, of nodes, rows and edges. -/
structure Counters where
  node : Nat
  row : Nat
  edge : Nat
deriving DecidableEq, Repr

namespace Counters

/-- After a tree with `n` nodes, each of which has one edge. -/
def advance (k : Counters) (n : Nat) : Counters := ⟨k.node + n, k.row + n, k.edge + n⟩

/-- After the node at the root of a tree, whose edge is yet to come. -/
def afterRoot (k : Counters) : Counters := { k with node := k.node + 1, row := k.row + 1 }

end Counters

def nodeId (n : Nat) : String := "node_" ++ toString n

def edgeId (n : Nat) : String := "edge_" ++ toString n

/-- A node of a tree and the edge that leaves it. -/
structure Sprout where
  node : Node Cell
  edge : Edge

namespace Formula

/-- The node of a tree's root with its edge, followed by those upstream of it. The tree feeds the
node numbered `consumer`, and its root stands in the given column. -/
def sprouts (consumer column : Nat) (k : Counters) : Formula → List Sprout
  | .test c =>
    [⟨⟨nodeId k.node, .tree column k.row, .condition c⟩,
      { id := edgeId k.edge, source := nodeId k.node, target := nodeId consumer }⟩]
  | .gate op fs =>
    ⟨⟨nodeId k.node, .tree column k.row, .logic op⟩,
      { id := edgeId (k.edge + size.sizes fs), source := nodeId k.node,
        target := nodeId consumer }⟩ ::
      sproutsOf k.node (column - 1) k.afterRoot fs
where
  sproutsOf (consumer column : Nat) (k : Counters) : List Formula → List Sprout
    | [] => []
    | f :: fs =>
      f.sprouts consumer column k ++ sproutsOf consumer column (k.advance f.size) fs

end Formula

/-- A badge node with the trees that feed it. -/
structure Planted where
  badge : Node Cell
  sprouts : List Sprout

/-- Plants awards with their roots, badge nodes in column `column` from row `row` on. -/
def plant (column row : Nat) (k : Counters) : List (Award × List Formula) → List Planted
  | [] => []
  | (a, fs) :: rest =>
    let trees := { k with node := k.node + 1 }
    ⟨⟨nodeId k.node, .badge column row, .badge a⟩,
      Formula.sprouts.sproutsOf k.node (column - 1) trees fs⟩ ::
      plant column (row + 1) (trees.advance (Formula.size.sizes fs)) rest

namespace Rule

variable {P : Type}

/-- The number of levels of the deepest tree, extra slots included. -/
def depth (r : Rule P) : Nat := Formula.depth.depths (r.slots.flatMap Slot.roots)

def planted (r : Rule P) : List Planted := plant r.depth 0 ⟨0, 0, 0⟩ r.guarded

/-- The canvas of a rule, on cells. -/
def layOut (r : Rule P) : Canvas Cell where
  nodes := r.planted.flatMap fun p => p.badge :: p.sprouts.map Sprout.node
  edges := r.planted.flatMap fun p => p.sprouts.map Sprout.edge

/-- The index of the last saved entry with this id. -/
def entryWithId? (saved : List (Placement P)) (id : String) : Option Nat :=
  ((saved.zipIdx.filter (·.1.id == id)).getLast?).map Prod.snd

/-- Moves nodes to their saved places. An entry with the node's id comes first; otherwise it is the
entry at the node's own index, unless that belongs to another node by its id. A node with neither
stays where it is. -/
def restore (saved : List (Placement P)) (nodes : List (Node P)) : List (Node P) :=
  let claimed := nodes.filterMap fun n => entryWithId? saved n.id
  nodes.mapIdx fun i n =>
    let entry := (entryWithId? saved n.id).or (if claimed.contains i then none else some i)
    match entry.bind (saved[·]?) with
    | some p => { n with position := p.position }
    | none => n

/-- The canvas of a rule. Cells are placed by `place`, and then the saved layout counts. -/
def expandWith (place : Cell → P) (r : Rule P) : Canvas P :=
  let c := r.layOut.map place
  match r.layout with
  | some saved => { c with nodes := restore saved c.nodes }
  | none => c

def expand (r : Rule Position) (g : Grid Float := .standard) : Canvas Position :=
  r.expandWith g.place

def expansionEvents (r : Rule P) : List Event :=
  let c := r.layOut
  (if r.awards.length < r.slots.length then
    [.extraSlots r.id (r.slots.length - r.awards.length)] else []) ++
    [.expanded r.id c.nodes.length c.edges.length]

end Rule

end BadgeRules
