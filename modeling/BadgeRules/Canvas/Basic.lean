import BadgeRules.Comparison

/-!
# Canvases

The graph that is edited: nodes for conditions, logic and badges, and wires from a producer to its
consumer. Nodes are placed by values of any type `P`; the editor uses `Position`.
-/

namespace BadgeRules

structure Point (α : Type) where
  x : α
  y : α
deriving BEq

abbrev Position := Point Float

/-- A badge, and how often it is awarded. -/
structure Award where
  badge : String
  name : Option String
  quantity : UInt32
deriving BEq, DecidableEq

inductive NodeKind
  | condition
  | logic
  | badge
deriving DecidableEq, Repr

namespace NodeKind

def all : List NodeKind := [condition, logic, badge]

def name : NodeKind → String
  | condition => "condition"
  | logic => "logic"
  | badge => "badge"

/-- The kinds of nodes that may feed a node of this kind. -/
def sources : NodeKind → List NodeKind
  | condition => []
  | logic => [condition, logic]
  | badge => [condition, logic]

/-- The kinds of nodes that a node of this kind may feed. -/
def targets : NodeKind → List NodeKind
  | condition => [logic, badge]
  | logic => [logic, badge]
  | badge => []

def acceptsFrom (target source : NodeKind) : Bool := target.sources.contains source

def canFeed (source target : NodeKind) : Bool := source.targets.contains target

theorem canFeed_eq_acceptsFrom : ∀ source target : NodeKind,
    source.canFeed target = target.acceptsFrom source := by
  intro source target; cases source <;> cases target <;> rfl

end NodeKind

/-- What a node stands for. Notes, groups and whatever else an editor draws are `unknown`. -/
inductive Payload
  | condition (comparison : Comparison)
  | logic (op : Connective)
  | badge (award : Award)
  | unknown
deriving BEq

def Payload.kind? : Payload → Option NodeKind
  | condition _ => some .condition
  | logic _ => some .logic
  | badge _ => some .badge
  | unknown => none

structure Node (P : Type) where
  id : String
  position : P
  payload : Payload
deriving BEq

namespace Node

variable {P Q : Type}

def kind? (n : Node P) : Option NodeKind := n.payload.kind?

def map (f : P → Q) (n : Node P) : Node Q := ⟨n.id, f n.position, n.payload⟩

end Node

/-- A wire from the node `source` to the node `target`. The handles say where it is drawn. -/
structure Edge where
  id : String
  source : String
  target : String
  sourceHandle : Option String := none
  targetHandle : Option String := none
deriving DecidableEq

/-- A wire that is being drawn: either end may still be loose. -/
structure Connection where
  source : Option String := none
  target : Option String := none
  sourceHandle : Option String := none
  targetHandle : Option String := none
deriving DecidableEq

def Edge.connection (e : Edge) : Connection :=
  ⟨some e.source, some e.target, e.sourceHandle, e.targetHandle⟩

structure Canvas (P : Type) where
  nodes : List (Node P) := []
  edges : List Edge := []
deriving BEq

namespace Canvas

variable {P Q : Type}

/-- The first node with this id. -/
def node? (c : Canvas P) (id : String) : Option (Node P) := c.nodes.find? (·.id == id)

def ofKind (c : Canvas P) (kind : NodeKind) : List (Node P) :=
  c.nodes.filter (·.kind? == some kind)

/-- The edges that arrive at an id, in order. -/
def incoming (c : Canvas P) (id : String) : List Edge := c.edges.filter (·.target == id)

/-- The edges that leave an id, in order. -/
def outgoing (c : Canvas P) (id : String) : List Edge := c.edges.filter (·.source == id)

def map (f : P → Q) (c : Canvas P) : Canvas Q := ⟨c.nodes.map (Node.map f), c.edges⟩

end Canvas

end BadgeRules
