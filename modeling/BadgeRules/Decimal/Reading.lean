import BadgeRules.Decimal.Numeral

/-!
# The double that a numeral stands for

The digits are gathered into one 64-bit word and scaled by one power of ten. Digits that no longer
fit the word are dropped, so a long numeral may be read a little off the nearest double.
-/

namespace BadgeRules.Numeral

/-- What a 64-bit word holds stays below this. -/
def wordLimit : Nat := UInt64.size

/-- Drops low digits of `n` until the rest fits a word; also says how many were dropped. -/
def shorten (n : Nat) : Nat × Nat :=
  if n < wordLimit then (n, 0)
  else
    let (m, dropped) := shorten (n / 10)
    (m, dropped + 1)
termination_by n
decreasing_by unfold wordLimit UInt64.size at *; omega

/-- Appends digits to `n` while the result fits a word; also says how many were appended. -/
def extend (n : Nat) (ds : List Digit) : Nat × Nat :=
  match ds with
  | [] => (n, 0)
  | d :: ds =>
    if 10 * n + d.val < wordLimit then
      let (m, appended) := extend (10 * n + d.val) ds
      (m, appended + 1)
    else (n, 0)

/-- The largest power of ten that is a finite double. -/
def maxPower : Nat := 308

def power (n : Nat) : Float := Float.ofScientific 1 false n

/-- `x / 10 ^ n`, by steps of `10 ^ 308` until nothing is left. -/
def shrink (x : Float) (n : Nat) : Float :=
  if n ≤ maxPower then x / power n
  else if x == 0 then x
  else shrink (x / power maxPower) (n - maxPower)
termination_by n
decreasing_by unfold maxPower at *; omega

/-- `x * 10 ^ e`, unless that is too large for a double. -/
def scale (x : Float) (e : Int) : Option Float :=
  match e with
  | .ofNat 0 => some x
  | .ofNat n =>
    if n ≤ maxPower then
      let y := x * power n
      if y.isInf then none else some y
    else if x == 0 then some x
    else none
  | .negSucc n => some (shrink x (n + 1))

/-- Reads the numeral as a double, unless it is too large. -/
def toFloat? (n : Numeral) : Option Float :=
  let (head, dropped) := shorten n.whole
  let (significand, appended) := extend head n.fraction
  let e : Int := n.exponent.getD 0 + dropped - appended
  (scale significand.toUInt64.toFloat e).map fun x => if n.negative then -x else x

end BadgeRules.Numeral
