import BadgeRules.Decimal.Numeral

/-!
# Documents

JSON documents as trees. Numbers stay as they are written, and members of an object stay in their
order, repetitions included, so that what a reader makes of them is up to the reader.
-/

namespace BadgeRules

/-- A value without parts. A text is `none` if it holds half of a surrogate pair. -/
inductive Atom
  | null
  | bool (value : Bool)
  | number (numeral : Numeral)
  | text (content : Option String)
deriving DecidableEq

inductive Json
  | atom (value : Atom)
  | array (items : List Json)
  | object (members : List (Option String × Json))

namespace Json

instance : Inhabited Json := ⟨.atom .null⟩

def null : Json := .atom .null

def bool (b : Bool) : Json := .atom (.bool b)

def text (s : String) : Json := .atom (.text (some s))

def int (n : Int) : Json := .atom (.number (.ofInt n))

def record (members : List (String × Json)) : Json := .object (members.map fun (k, j) => (some k, j))

/-- A member that is left out when there is nothing to write. -/
def optional (key : String) (value : Option Json) : List (String × Json) :=
  match value with
  | some j => [(key, j)]
  | none => []

/-- Every array and object counts one level, an empty one too. -/
def depth : Json → Nat
  | .atom _ => 0
  | .array items => 1 + ofItems items
  | .object members => 1 + ofMembers members
where
  ofItems : List Json → Nat
    | [] => 0
    | j :: js => max j.depth (ofItems js)
  ofMembers : List (Option String × Json) → Nat
    | [] => 0
    | (_, j) :: ms => max j.depth (ofMembers ms)

end Json

end BadgeRules
