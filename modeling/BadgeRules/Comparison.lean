import BadgeRules.Operand

/-!
# Comparisons and connectives

The leaves and the inner nodes of a rule: a comparison of a field with an operand, and the ways to
combine conditions.
-/

namespace BadgeRules

inductive Operator
  | equal
  | notEqual
  | greater
  | atLeast
  | less
  | atMost
  | oneOf
  | noneOf
  | contains
deriving DecidableEq, Repr

namespace Operator

def all : List Operator :=
  [equal, notEqual, greater, atLeast, less, atMost, oneOf, noneOf, contains]

def symbol : Operator → String
  | equal => "=="
  | notEqual => "!="
  | greater => ">"
  | atLeast => ">="
  | less => "<"
  | atMost => "<="
  | oneOf => "IN"
  | noneOf => "NOT IN"
  | contains => "CONTAINS"

def name : Operator → String
  | equal => "eq"
  | notEqual => "neq"
  | greater => "gt"
  | atLeast => "gte"
  | less => "lt"
  | atMost => "lte"
  | oneOf => "in"
  | noneOf => "not_in"
  | contains => "contains"

theorem mem_all (op : Operator) : op ∈ all := by cases op <;> decide

end Operator

/-- How a logic node combines the conditions that feed it. -/
inductive Connective
  | and
  | or
  | xor
  | not
deriving DecidableEq, Repr

namespace Connective

def all : List Connective := [and, or, xor, not]

/-- The word in a summary, and the name in a document. -/
def word : Connective → String
  | and => "AND"
  | or => "OR"
  | xor => "XOR"
  | not => "NOT"

theorem mem_all (op : Connective) : op ∈ all := by cases op <;> decide

end Connective

structure Comparison where
  field : String
  operator : Operator
  operand : Operand
deriving BEq

/-- `amount >= 100` -/
def Comparison.text (c : Comparison) : String :=
  c.field ++ " " ++ c.operator.symbol ++ " " ++ c.operand.text

end BadgeRules
