import BadgeRules.Decimal.Shortest
import BadgeRules.Text

/-!
# Operands

What a field is compared with: one scalar, or a list of them. Numbers are doubles; operands are
equal (`==`) when their numbers are equal as doubles, and are hashed by the bits of their numbers.
-/

namespace BadgeRules

inductive Scalar
  | bool (value : Bool)
  | number (value : Float)
  | text (value : String)
  | null
deriving BEq

inductive Operand
  | list (items : List Scalar)
  | single (item : Scalar)
deriving BEq

namespace Scalar

instance : Coe Float Scalar := ⟨.number⟩
instance : Coe Bool Scalar := ⟨.bool⟩
instance : Coe String Scalar := ⟨.text⟩

/-- An integer is rounded to the nearest double. -/
def ofInt (n : Int) : Scalar := .number (Float.ofInt n)

/-- The text of a scalar in a summary. Integers up to `Double.maxExact` have no point. -/
def chars : Scalar → List Char
  | .bool b => (if b then "true" else "false").toList
  | .number x =>
    match Double.exactInt? x with
    | some n => (Numeral.ofInt n).chars
    | none => inFull x
  | .text s => quoted s
  | .null => "null".toList

end Scalar

/-- What a hash function is fed. -/
inductive HashInput
  | variant (index : Nat)
  | length (n : Nat)
  | bool (value : Bool)
  | bits (value : UInt64)
  | text (value : String)
deriving DecidableEq

def Scalar.hashInput : Scalar → List HashInput
  | .bool b => [.variant 0, .bool b]
  | .number x => [.variant 1, .bits x.toBits]
  | .text s => [.variant 2, .text s]
  | .null => [.variant 3]

namespace Operand

def joined : List Scalar → List Char
  | [] => []
  | [s] => s.chars
  | s :: ss => s.chars ++ [',', ' '] ++ joined ss

def chars : Operand → List Char
  | .list items => '[' :: joined items ++ [']']
  | .single item => item.chars

def text (o : Operand) : String := String.ofList o.chars

def hashInput : Operand → List HashInput
  | .list items => .variant 0 :: .length items.length :: items.flatMap Scalar.hashInput
  | .single item => .variant 1 :: item.hashInput

end Operand

end BadgeRules
