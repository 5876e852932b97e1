import BadgeRules.Comparison
import BadgeRules.Json.Decoder

/-!
# Comparisons in documents

Integers up to `Double.maxExact` are written without a point, and numbers that are not finite as
`null`. Everything here is read from a document that was `checked`, except an operand by itself.
-/

namespace BadgeRules

open Decoder

/-- A double that is not finite is written as `null`. -/
def Json.ofFloat (x : Float) : Json :=
  match Numeral.ofFloat? x with
  | some n => .atom (.number n)
  | none => .null

namespace Scalar

def toJson : Scalar → Json
  | .bool b => .bool b
  | .number x =>
    match Double.exactInt? x with
    | some n => .int n
    | none => .ofFloat x
  | .text s => .text s
  | .null => .null

def decode : Decoder Scalar := fun _ j =>
  match j with
  | .atom (.bool b) => some (.bool b)
  | .atom (.number n) => n.toFloat?.map .number
  | .atom (.text s) => s.map .text
  | .atom .null => some .null
  | _ => none

end Scalar

namespace Operand

def toJson : Operand → Json
  | .list items => .array (items.map Scalar.toJson)
  | .single item => item.toJson

/-- A list of scalars, or one. Lists do not nest. -/
def decode : Decoder Operand := fun room j =>
  match j with
  | .array _ => (listOf Scalar.decode room j).map .list
  | j => (Scalar.decode room j).map .single

end Operand

def Operator.toJson (op : Operator) : Json := .text op.name

def Operator.names : List (String × Operator) := Operator.all.map fun op => (op.name, op)

def Connective.toJson (op : Connective) : Json := .text op.word

def Connective.names : List (String × Connective) := Connective.all.map fun op => (op.word, op)

namespace Comparison

def members (c : Comparison) : List (String × Json) :=
  [("field", .text c.field), ("operator", c.operator.toJson), ("value", c.operand.toJson)]

def decode : Decoder Comparison :=
  record ["field", "operator", "value"] fun room fields =>
    match fields with
    | [field, operator, operand] => do
      let field ← required string room field
      let operator ← required (choice true Operator.names) room operator
      let operand ← required Operand.decode room operand
      return ⟨field, operator, operand⟩
    | _ => none

end Comparison

end BadgeRules
