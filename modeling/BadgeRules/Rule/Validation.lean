import BadgeRules.Rule.Basic
import BadgeRules.Text

/-!
# Validating rules

The shape that a rule must have to be saved. All violations are collected; whether the graph behind
the rule is sound is the business of `Canvas.check`.
-/

namespace BadgeRules

inductive Violation
  | emptyId
  | emptyName
  | noAwards
  | emptyBadge (index : Nat)
  | badQuantity (index : Nat) (quantity : UInt32)
deriving DecidableEq

def Violation.message : Violation → String
  | emptyId => "rule id must not be empty"
  | emptyName => "rule name must not be empty"
  | noAwards => "rule must award at least one badge"
  | emptyBadge i => "action " ++ toString i ++ ": badge id must not be empty"
  | badQuantity i n => "action " ++ toString i ++ ": quantity must be at least 1, got " ++
    toString n.toNat

def Award.violations (i : Nat) (a : Award) : List Violation :=
  (if a.badge = "" then [.emptyBadge i] else []) ++
    (if a.quantity = 0 then [.badQuantity i a.quantity] else [])

/-- Whether a rule may be saved, with a text for everything that speaks against it. -/
structure Validation where
  valid : Bool
  errors : List String
deriving DecidableEq

def Validation.text (v : Validation) : String :=
  if v.valid then "valid" else "invalid: " ++ "; ".intercalate v.errors

namespace Rule

variable {P : Type}

def violations (r : Rule P) : List Violation :=
  (if r.id = "" then [.emptyId] else []) ++
    (if isBlankText r.name then [.emptyName] else []) ++
    (if r.awards = [] then [.noAwards] else []) ++
    (r.awards.mapIdx Award.violations).flatten

def validate (r : Rule P) : Validation :=
  let errors := r.violations.map Violation.message
  ⟨errors.isEmpty, errors⟩

def isValid (r : Rule P) : Bool := r.validate.valid

def verdict (r : Rule P) : String := r.validate.text

end Rule

end BadgeRules
