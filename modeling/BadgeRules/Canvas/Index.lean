import Std.Data.HashMap
import BadgeRules.Canvas.Basic

/-!
# The index of a canvas

The questions that a canvas is asked by id. `Canvas.scan` answers them by going through the lists,
`Canvas.index` from tables that are filled in one pass; both answer alike (`Canvas.index_eq_scan`).
-/

namespace BadgeRules

variable {P : Type}

/-- What can be asked about the ids of a canvas. -/
structure Index (P : Type) where
  /-- The first node with this id. -/
  node? : String → Option (Node P)
  /-- The edges that arrive there, in order. -/
  incoming : String → List Edge
  /-- The edges that leave there, in order. -/
  outgoing : String → List Edge

namespace Index

def kindOf? (ix : Index P) (id : String) : Option NodeKind := (ix.node? id).bind Node.kind?

def hasEdge (ix : Index P) (source target : String) : Bool :=
  (ix.outgoing source).any (·.target == target)

end Index

/-- Groups a list by a key. Each group is in reverse. -/
def groupBy (key : Edge → String) (edges : List Edge) : Std.HashMap String (List Edge) :=
  edges.foldl (fun m e => m.insert (key e) (e :: m.getD (key e) [])) ∅

theorem getD_foldl_insert (key : Edge → String) (edges : List Edge)
    (m : Std.HashMap String (List Edge)) (id : String) :
    (edges.foldl (fun m e => m.insert (key e) (e :: m.getD (key e) [])) m).getD id [] =
      (edges.filter (key · == id)).reverse ++ m.getD id [] := by
  induction edges generalizing m with
  | nil => rfl
  | cons e es ih =>
    rw [List.foldl_cons, ih, Std.HashMap.getD_insert, List.filter_cons]
    by_cases h : (key e == id) = true
    · rw [if_pos h, if_pos h, eq_of_beq h]; simp
    · rw [if_neg h, if_neg h]

/-- A group holds the elements with its key. -/
theorem getD_groupBy (key : Edge → String) (edges : List Edge) (id : String) :
    ((groupBy key edges).getD id []).reverse = edges.filter (key · == id) := by
  rw [groupBy, getD_foldl_insert]; simp

def firstNodes (nodes : List (Node P)) : Std.HashMap String (Node P) :=
  nodes.foldl (fun m n => m.insertIfNew n.id n) ∅

theorem getElem?_foldl_insertIfNew (nodes : List (Node P)) (m : Std.HashMap String (Node P))
    (id : String) : (nodes.foldl (fun m n => m.insertIfNew n.id n) m)[id]? =
      m[id]?.or (nodes.find? (·.id == id)) := by
  induction nodes generalizing m with
  | nil => simp
  | cons n ns ih =>
    rw [List.foldl_cons, ih, Std.HashMap.getElem?_insertIfNew, List.find?_cons]
    by_cases h : (n.id == id) = true
    · have hid := eq_of_beq h
      subst hid
      by_cases hm : n.id ∈ m
      · simp [hm]
      · simp [hm]
    · simp [h]

theorem getElem?_firstNodes (nodes : List (Node P)) (id : String) :
    (firstNodes nodes)[id]? = nodes.find? (·.id == id) := by
  rw [firstNodes, getElem?_foldl_insertIfNew]; simp

namespace Canvas

/-- Answers by going through the lists. -/
def scan (c : Canvas P) : Index P := ⟨c.node?, c.incoming, c.outgoing⟩

/-- Answers from tables. -/
def index (c : Canvas P) : Index P :=
  let nodes := firstNodes c.nodes
  let incoming := (groupBy Edge.target c.edges).map fun _ es => es.reverse
  let outgoing := (groupBy Edge.source c.edges).map fun _ es => es.reverse
  ⟨fun id => nodes[id]?, fun id => incoming.getD id [], fun id => outgoing.getD id []⟩

/-- Tables and lists answer alike. -/
theorem index_eq_scan (c : Canvas P) : c.index = c.scan := by
  have group (key : Edge → String) (id : String) :
      ((groupBy key c.edges).map fun _ es => es.reverse).getD id [] =
        c.edges.filter (key · == id) := by
    rw [← getD_groupBy, Std.HashMap.getD_eq_getD_getElem?, Std.HashMap.getElem?_map,
      Std.HashMap.getD_eq_getD_getElem?]
    cases (groupBy key c.edges)[id]? <;> simp
  simp only [index, scan, Index.mk.injEq]
  exact ⟨funext (getElem?_firstNodes c.nodes), funext (group Edge.target),
    funext (group Edge.source)⟩

theorem index_node? (c : Canvas P) : c.index.node? = c.node? := by rw [index_eq_scan]; rfl

theorem index_incoming (c : Canvas P) : c.index.incoming = c.incoming := by rw [index_eq_scan]; rfl

theorem index_outgoing (c : Canvas P) : c.index.outgoing = c.outgoing := by rw [index_eq_scan]; rfl

end Canvas

end BadgeRules
