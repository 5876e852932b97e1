import BadgeRules.Document.Canvas
import BadgeRules.Rule.Expand

/-!
# Rules in documents, and grids
-/

namespace BadgeRules

open Decoder

namespace Formula

def toJson : Formula → Json
  | .test c => .record (("type", .text "condition") :: c.members)
  | .gate op fs =>
    .record [("type", .text "logic"), ("logicType", op.toJson), ("children", .array (toJsons fs))]
where
  toJsons : List Formula → List Json
    | [] => []
    | f :: fs => f.toJson :: toJsons fs

/-- Whether a tag stands for the variant with this name and number. -/
def isTag (name : String) (number : Nat) : Json → Bool
  | .atom (.text s) => s == some name
  | .atom (.number n) => n.toNat? == some number
  | _ => false

/-- Reads a tree from a document that was checked. The member `type` says what a node is, by name
or by number. -/
def decode : Decoder Formula
  | 0, _ => none
  | room + 1, j => do
    let (tag, rest) ← j.tagged? "type"
    if isTag "condition" 0 tag then (Comparison.decode (room + 1) rest).map .test
    else if isTag "logic" 1 tag then
      match ← rest.fields? ["logicType", "children"] with
      | [op, operands] => do
        let op ← required (choice true Connective.names) room op
        match operands with
        | none => return .gate op []
        | some (.array js) => return .gate op (← js.mapM (decode room))
        | some _ => none
      | _ => none
    else none

end Formula

namespace Slot

def toJson : Slot → Json
  | .single root => root.toJson
  | .many roots => .array (Formula.toJson.toJsons roots)

/-- One tree if it can be read as one, otherwise a list of trees. -/
def decode : Decoder Slot :=
  checked fun room j =>
    ((Formula.decode room j).map .single).or ((listOf Formula.decode room j).map .many)

end Slot

namespace Award

/-- The only thing that a rule can do. -/
def action : String := "award_badge"

def toAction (a : Award) : Json := .record (("type", .text action) :: a.members)

def decodeAction : Decoder Award :=
  record ["type", "badgeId", "badgeName", "quantity"] fun room fields =>
    match fields with
    | [type, badge, name, quantity] => do
      required (choice false [(action, ())]) room type
      let badge ← required string room badge
      let name ← optionalText room name
      let quantity ← required word room quantity
      return ⟨badge, name, quantity⟩
    | _ => none

end Award

namespace Placement

def toJson (p : Placement Position) : Json :=
  .record [("id", .text p.id), ("position", p.position.toJson)]

def decode : Decoder (Placement Position) :=
  record ["id", "position"] fun room fields =>
    match fields with
    | [id, position] => do
      return ⟨← required string room id, ← required Point.decode room position⟩
    | _ => none

end Placement

def layoutToJson (l : List (Placement Position)) : Json :=
  .record [("nodes", .array (l.map Placement.toJson))]

def decodeLayout : Decoder (List (Placement Position)) :=
  record ["nodes"] fun room fields =>
    match fields with
    | [nodes] => withDefault [] (listOf Placement.decode) room nodes
    | _ => none

namespace Rule

def toJson (r : Rule Position) : Json :=
  .record ([("id", .text r.id), ("name", .text r.name)] ++
    Json.optional "description" (r.description.map .text) ++
    [("conditions", .array (r.slots.map Slot.toJson)),
      ("actions", .array (r.awards.map Award.toAction))] ++
    Json.optional "layout" (r.layout.map layoutToJson))

def decode : Decoder (Rule Position) :=
  record ["id", "name", "description", "conditions", "actions", "layout"] fun room fields =>
    match fields with
    | [id, name, description, slots, awards, layout] => do
      let id ← required string room id
      let name ← required string room name
      let description ← optionalText room description
      let slots ← withDefault [] (listOf Slot.decode) room slots
      let awards ← withDefault [] (listOf Award.decodeAction) room awards
      let layout ← withDefault none decodeLayout.nullable room layout
      return ⟨id, name, description, slots, awards, layout⟩
    | _ => none

def serialize (r : Rule Position) : String := r.toJson.compact

def parse? (text : String) : Option (Rule Position) := (Json.parse? text).bind (decode maxDepth)

end Rule

namespace Grid

/-- Every field that is missing is that of the standard grid. -/
def decode : Decoder (Grid Float) :=
  record ["columnSpacing", "rowSpacing", "badgeRowSpacing", "origin"] fun room fields =>
    match fields with
    | [column, row, badgeRow, origin] => do
      let column ← withDefault standard.columnSpacing float room column
      let row ← withDefault standard.rowSpacing float room row
      let badgeRow ← withDefault standard.badgeRowSpacing float room badgeRow
      let origin ← withDefault standard.origin Point.decode room origin
      return ⟨column, row, badgeRow, origin⟩
    | _ => none

def parse? (text : String) : Option (Grid Float) := (Json.parse? text).bind (decode maxDepth)

end Grid

end BadgeRules
