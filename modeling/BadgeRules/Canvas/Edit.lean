import BadgeRules.Canvas.Check

/-!
# Editing a canvas
-/

namespace BadgeRules.Canvas

variable {P : Type}

def addNode (c : Canvas P) (n : Node P) : Canvas P := { c with nodes := c.nodes ++ [n] }

/-- Appends an edge, whatever it joins. -/
def addEdge (c : Canvas P) (e : Edge) : Canvas P := { c with edges := c.edges ++ [e] }

def connect (c : Canvas P) (e : Edge) : Except Refusal (Canvas P) := do
  c.check e.connection
  return c.addEdge e

def deleteEdges (c : Canvas P) (p : Edge → Bool) : Canvas P :=
  { c with edges := c.edges.filter fun e => !p e }

def disconnect (c : Canvas P) (id : String) : Canvas P := c.deleteEdges (·.id == id)

/-- Deletes the nodes with this id and leaves the edges dangling. -/
def deleteNodes (c : Canvas P) (id : String) : Canvas P :=
  { c with nodes := c.nodes.filter (·.id != id) }

/-- Deletes the nodes with this id and the edges that touch it. -/
def remove (c : Canvas P) (id : String) : Canvas P :=
  (c.deleteNodes id).deleteEdges fun e => e.source == id || e.target == id

def moveFirst (id : String) (p : P) : List (Node P) → List (Node P)
  | [] => []
  | n :: ns => if n.id = id then { n with position := p } :: ns else n :: moveFirst id p ns

/-- Moves the first node with this id. -/
def move (c : Canvas P) (id : String) (p : P) : Canvas P :=
  { c with nodes := moveFirst id p c.nodes }

end BadgeRules.Canvas
