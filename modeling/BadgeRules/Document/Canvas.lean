import BadgeRules.Canvas.Basic
import BadgeRules.Document.Comparison
import BadgeRules.Json.Printer
import BadgeRules.Json.Reader

/-!
# Canvases in documents
-/

namespace BadgeRules

open Decoder

namespace Point

def toJson (p : Position) : Json := .record [("x", .ofFloat p.x), ("y", .ofFloat p.y)]

def decode : Decoder Position :=
  record ["x", "y"] fun room fields =>
    match fields with
    | [x, y] => do return ⟨← required float room x, ← required float room y⟩
    | _ => none

end Point

namespace Award

def members (a : Award) : List (String × Json) :=
  ("badgeId", .text a.badge) :: Json.optional "badgeName" (a.name.map .text) ++
    [("quantity", .int a.quantity.toNat)]

def decode : Decoder Award :=
  record ["badgeId", "badgeName", "quantity"] fun room fields =>
    match fields with
    | [badge, name, quantity] => do
      let badge ← required string room badge
      let name ← optionalText room name
      let quantity ← required word room quantity
      return ⟨badge, name, quantity⟩
    | _ => none

end Award

namespace NodeKind

def names : List (String × NodeKind) := all.map fun k => (k.name, k)

def decode : Decoder NodeKind := choice false names

end NodeKind

namespace Payload

/-- A payload of unknown kind keeps nothing but that. -/
def toJson : Payload → Json
  | .condition c => .record (("kind", .text "condition") :: c.members)
  | .logic op => .record [("kind", .text "logic"), ("logicType", op.toJson)]
  | .badge a => .record (("kind", .text "badge") :: a.members)
  | .unknown => .record [("kind", .text "unknown")]

/-- What the kind `kind` makes of the rest of a payload. -/
def decodeAs (kind : String) : Decoder Payload := fun room j =>
  match NodeKind.names.lookup kind with
  | some .condition => (Comparison.decode room j).map .condition
  | some .logic =>
    record ["logicType"] (fun room fields =>
      match fields with
      | [op] => (required (choice true Connective.names) room op).map .logic
      | _ => none) room j
  | some .badge => (Award.decode room j).map .badge
  | none =>
    match j with
    | .object _ => some .unknown
    | .array [] => some .unknown
    | _ => none

/-- The member `kind` says what the payload is. -/
def decode : Decoder Payload :=
  checked fun room j =>
    match j.tagged? "kind" with
    | some (.atom (.text (some kind)), rest) => decodeAs kind room rest
    | _ => none

end Payload

namespace Node

def toJson (n : Node Position) : Json :=
  .record [("id", .text n.id), ("position", n.position.toJson), ("data", n.payload.toJson)]

def decode : Decoder (Node Position) :=
  record ["id", "position", "data"] fun room fields =>
    match fields with
    | [id, position, payload] => do
      let id ← required string room id
      let position ← withDefault ⟨0, 0⟩ Point.decode room position
      let payload ← required Payload.decode room payload
      return ⟨id, position, payload⟩
    | _ => none

end Node

namespace Edge

def toJson (e : Edge) : Json :=
  .record ([("id", .text e.id), ("source", .text e.source), ("target", .text e.target)] ++
    Json.optional "sourceHandle" (e.sourceHandle.map .text) ++
    Json.optional "targetHandle" (e.targetHandle.map .text))

def decode : Decoder Edge :=
  record ["id", "source", "target", "sourceHandle", "targetHandle"] fun room fields =>
    match fields with
    | [id, source, target, sourceHandle, targetHandle] => do
      let id ← required string room id
      let source ← required string room source
      let target ← required string room target
      let sourceHandle ← optionalText room sourceHandle
      let targetHandle ← optionalText room targetHandle
      return ⟨id, source, target, sourceHandle, targetHandle⟩
    | _ => none

end Edge

namespace Connection

/-- A loose end is written as `null`. -/
def toJson (w : Connection) : Json :=
  .record ([("source", (w.source.map .text).getD .null),
    ("target", (w.target.map .text).getD .null)] ++
    Json.optional "sourceHandle" (w.sourceHandle.map .text) ++
    Json.optional "targetHandle" (w.targetHandle.map .text))

def decode : Decoder Connection :=
  record ["source", "target", "sourceHandle", "targetHandle"] fun room fields =>
    match fields with
    | [source, target, sourceHandle, targetHandle] => do
      let source ← optionalText room source
      let target ← optionalText room target
      let sourceHandle ← optionalText room sourceHandle
      let targetHandle ← optionalText room targetHandle
      return ⟨source, target, sourceHandle, targetHandle⟩
    | _ => none

end Connection

namespace Canvas

def toJson (c : Canvas Position) : Json :=
  .record [("nodes", .array (c.nodes.map Node.toJson)), ("edges", .array (c.edges.map Edge.toJson))]

def decode : Decoder (Canvas Position) :=
  record ["nodes", "edges"] fun room fields =>
    match fields with
    | [nodes, edges] => do
      let nodes ← withDefault [] (listOf Node.decode) room nodes
      let edges ← withDefault [] (listOf Edge.decode) room edges
      return ⟨nodes, edges⟩
    | _ => none

def parse? (text : String) : Option (Canvas Position) := (Json.parse? text).bind (decode maxDepth)

end Canvas

end BadgeRules
