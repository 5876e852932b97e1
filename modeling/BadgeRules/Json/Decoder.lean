import BadgeRules.Decimal.Reading
import BadgeRules.Json.Basic

/-!
# Reading values out of documents

A `Decoder` finds a value in a document, or refuses it. Documents may be nested `Decoder.maxDepth`
levels deep; a decoder is told how many levels are left (`room`). What a decoder does not look at
is not checked: an unknown member may be nested deeper and hold numbers too large for a double.
A `checked` decoder looks at everything.
-/

namespace BadgeRules

/-- Reads a document that may be nested up to the given number of levels. -/
abbrev Decoder (α : Type) := Nat → Json → Option α

/-- Whether the atom has a value: a number is finite, a text has its characters. -/
def Atom.isReadable : Atom → Bool
  | .number n => n.toFloat?.isSome
  | .text s => s.isSome
  | _ => true

namespace Json

/-- Whether every number, text and key has a value. -/
def isReadable : Json → Bool
  | .atom a => a.isReadable
  | .array items => ofItems items
  | .object members => ofMembers members
where
  ofItems : List Json → Bool
    | [] => true
    | j :: js => j.isReadable && ofItems js
  ofMembers : List (Option String × Json) → Bool
    | [] => true
    | (k, j) :: ms => k.isSome && j.isReadable && ofMembers ms

/-- The fields with these names, in this order; `none` for one that is missing. An object may have
further members, but none of the fields twice. An array has the fields in order, and may lack the
last ones. -/
def fields? (names : List String) (j : Json) : Option (List (Option Json)) :=
  match j with
  | .object members =>
    if members.all (·.1.isSome) ∧ names.all (fun n => (members.countP (·.1 == some n)) ≤ 1) then
      some (names.map fun n => members.lookup (some n))
    else none
  | .array items =>
    if items.length ≤ names.length then
      some (items.map some ++ List.replicate (names.length - items.length) none)
    else none
  | .atom _ => none

/-- Splits off the member that says what the other ones mean. In an array it is the first item. -/
def tagged? (tag : String) (j : Json) : Option (Json × Json) :=
  match j with
  | .object members =>
    match members.filter (·.1 == some tag) with
    | [(_, t)] => some (t, .object (members.filter (·.1 != some tag)))
    | _ => none
  | .array (t :: items) => some (t, .array items)
  | _ => none

end Json

namespace Decoder

variable {α : Type}

def maxDepth : Nat := 127

def string : Decoder String := fun _ j =>
  match j with
  | .atom (.text s) => s
  | _ => none

def float : Decoder Float := fun _ j =>
  match j with
  | .atom (.number n) => n.toFloat?
  | _ => none

/-- A natural number below `2 ^ 32`, written without sign, fraction and exponent. -/
def word : Decoder UInt32 := fun _ j =>
  match j with
  | .atom (.number n) =>
    match n.toNat? with
    | some n => if n < UInt32.size then some n.toUInt32 else none
    | none => none
  | _ => none

def nullable (d : Decoder α) : Decoder (Option α) := fun room j =>
  match j with
  | .atom .null => some none
  | j => (d room j).map some

def listOf (d : Decoder α) : Decoder (List α) := fun room j =>
  match room, j with
  | room + 1, .array items => items.mapM (d room)
  | _, _ => none

/-- One of some names, as a text or as an object with that one key. The value at the key says
nothing: it is `null`, or where `lenient` holds possibly an empty object. -/
def choice (lenient : Bool) (names : List (String × α)) : Decoder α := fun room j =>
  match room, j with
  | _, .atom (.text (some s)) => names.lookup s
  | _ + 1, .object [(some s, .atom .null)] => names.lookup s
  | _ + 2, .object [(some s, .object [])] => if lenient then names.lookup s else none
  | _, _ => none

/-- Reads the fields of an object or array, one level down. -/
def record (names : List String) (build : Nat → List (Option Json) → Option α) : Decoder α :=
  fun room j =>
    match room with
    | 0 => none
    | room + 1 => (j.fields? names).bind (build room)

def required (d : Decoder α) (room : Nat) (field : Option Json) : Option α := field.bind (d room)

def withDefault (a : α) (d : Decoder α) (room : Nat) (field : Option Json) : Option α :=
  match field with
  | some j => d room j
  | none => some a

/-- A text that may be missing or `null`. -/
def optionalText (room : Nat) (field : Option Json) : Option (Option String) :=
  withDefault none string.nullable room field

/-- Looks at everything in a document before it is read. -/
def checked (d : Decoder α) : Decoder α := fun room j =>
  if j.depth ≤ room ∧ j.isReadable then d room j else none

end Decoder

end BadgeRules
