import BadgeRules.Canvas.Index
import BadgeRules.Canvas.Reach

/-!
# Checking connections

Whether a wire may be drawn: both ends are on the canvas, their kinds fit, it is not there yet, and
it closes no cycle. The checks have a fixed order, and the first that fails gives the reason.
-/

namespace BadgeRules

variable {P : Type}

inductive Refusal
  | missingEnd
  | notOnCanvas (id : String)
  | selfConnection
  | unknownKind (id : String)
  | fromBadge
  | conditionToCondition
  | intoCondition
  | duplicate (source target : String)
  | cycle
deriving DecidableEq, Repr

def Refusal.message : Refusal → String
  | missingEnd => "incomplete connection: both a source and a target are required"
  | notOnCanvas id => "incomplete connection: node '" ++ id ++ "' does not exist on the canvas"
  | selfConnection => "cannot connect to itself"
  | unknownKind id => "invalid node type on node '" ++ id ++ "'"
  | fromBadge => "badge node is terminal, no outgoing connections"
  | conditionToCondition => "condition cannot directly target condition; combine via a logic node"
  | intoCondition => "condition nodes are leaves and accept no incoming connections"
  | duplicate source target => "connection from '" ++ source ++ "' to '" ++ target ++
    "' already exists"
  | cycle => "would create a cycle"

/-- The ids at both ends. An empty id counts as a loose end. -/
def Connection.ends (w : Connection) : Except Refusal (String × String) :=
  match w.source, w.target with
  | some s, some t => if s = "" ∨ t = "" then .error .missingEnd else .ok (s, t)
  | _, _ => .error .missingEnd

def NodeKind.checkFeed : NodeKind → NodeKind → Except Refusal Unit
  | .badge, _ => .error .fromBadge
  | .condition, .condition => .error .conditionToCondition
  | _, .condition => .error .intoCondition
  | _, _ => .ok ()

/-- The kinds that fit are those that may feed each other. -/
theorem NodeKind.checkFeed_eq_ok_iff (source target : NodeKind) :
    source.checkFeed target = .ok () ↔ source.canFeed target = true := by
  cases source <;> cases target <;> simp [checkFeed, canFeed, targets]

namespace Index

def find (ix : Index P) (id : String) : Except Refusal (Node P) :=
  match ix.node? id with
  | some n => .ok n
  | none => .error (.notOnCanvas id)

end Index

def Node.knownKind (n : Node P) : Except Refusal NodeKind :=
  match n.kind? with
  | some k => .ok k
  | none => .error (.unknownKind n.id)

namespace Canvas

/-- Whether edges lead from one id to another, or the two are the same. -/
def leads (c : Canvas P) (ix : Index P) (source target : String) : Bool :=
  reaches (fun id => (ix.outgoing id).map (·.target)) target (c.edges.map (·.source)) [source]

def check (c : Canvas P) (w : Connection) : Except Refusal Unit := do
  let (source, target) ← w.ends
  let ix := c.index
  let producer ← ix.find source
  let consumer ← ix.find target
  if source = target then throw .selfConnection
  let producerKind ← producer.knownKind
  let consumerKind ← consumer.knownKind
  producerKind.checkFeed consumerKind
  if ix.hasEdge source target then throw (.duplicate source target)
  if c.leads ix target source then throw .cycle

def accepts (c : Canvas P) (w : Connection) : Bool :=
  match c.check w with
  | .ok _ => true
  | .error _ => false

end Canvas

end BadgeRules
