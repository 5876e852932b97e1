/-!
# Events

What a conversion reports on its way. An event is data; its wording is in `Event.message`.
-/

namespace BadgeRules

inductive DropCause
  | missing
  /-- Its producer is already on the branch. -/
  | cycle
  | badge
deriving DecidableEq, Repr

inductive Event
  | dropped (cause : DropCause) (producer consumer : String)
  | compiled (rule : String) (awards emptySlots : Nat)
  | extraSlots (rule : String) (extra : Nat)
  | expanded (rule : String) (nodes edges : Nat)
  | rejected
deriving DecidableEq, Repr

inductive Level
  | debug
  | warn
deriving DecidableEq, Repr

def Level.name : Level → String
  | debug => "DEBUG"
  | warn => "WARN"

namespace Event

def level : Event → Level
  | dropped .. => .warn
  | _ => .debug

def message : Event → String
  | dropped .missing .. => "edge references a node that is not on the canvas, branch dropped"
  | dropped .cycle .. => "cycle detected while compiling conditions, branch dropped"
  | dropped .badge .. => "badge node used as a condition producer, branch dropped"
  | compiled .. => "compiled canvas into rule"
  | extraSlots .. => "condition slots without a matching action were not expanded"
  | expanded .. => "expanded rule into canvas"
  | rejected => "rejected stored rule definition"

def fields : Event → List (String × String)
  | dropped _ producer consumer => [("node_id", producer), ("consumer_id", consumer)]
  | compiled rule awards emptySlots =>
    [("rule_id", rule), ("actions", toString awards), ("empty_slots", toString emptySlots)]
  | extraSlots rule extra => [("rule_id", rule), ("extra", toString extra)]
  | expanded rule nodes edges =>
    [("rule_id", rule), ("nodes", toString nodes), ("edges", toString edges)]
  | rejected => []

end Event

end BadgeRules
