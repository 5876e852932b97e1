import BadgeRules.Decimal.Double
import BadgeRules.Decimal.Numeral

/-!
# The shortest decimal of a double

Of the decimals that are nearer to a double than to any other, one with the fewest digits is
chosen, and of those the nearest. Where two are equally near the caller decides (`Tie`).
Everything is exact arithmetic on `Double.units`.

Decimals are written in two forms. A numeral of a document (`Numeral.ofFloat?`) always shows that it is no
integer, by a point or an exponent, and sends a tie to the even digit. A number in a summary (`inFull`)
never has an exponent and sends a tie up.
-/

namespace BadgeRules

/-- Which of two neighbours with the double right between them is chosen. -/
inductive Tie
  | even
  | up
deriving DecidableEq, Repr

/-- `0.d₁d₂… * 10 ^ point`. -/
structure Decimal where
  digits : List Digit
  point : Int
deriving DecidableEq, Repr

namespace Decimal

/-- Whether `num / den` units are read as magnitude `b`: the value lies between the midpoints to the
neighbours of `b`, and a midpoint itself belongs to the even neighbour. -/
def readsAs (b num den : Nat) : Bool :=
  let low := (Double.units (b - 1) + Double.units b) * den
  let high := (Double.units b + Double.units (b + 1)) * den
  if b % 2 = 0 then low ≤ 2 * num ∧ 2 * num ≤ high else low < 2 * num ∧ 2 * num < high

/-- The number of digits before the point of the double with magnitude `b`; it is not positive
below `0.1`. No positive double is below `10 ^ -324`. -/
def pointOf (b : Nat) : Int :=
  (BadgeRules.digits (Double.units b * Nat.pow 10 324 / Double.unitsOfOne)).length - 324

/-- Of the neighbours with `n` digits of the double with magnitude `b` and `point` digits before its
point, the nearest that is read as `b`. The result counts steps of `10 ^ (point - n)`. -/
def withDigits (tie : Tie) (b : Nat) (point : Int) (n : Nat) : Option Nat :=
  let up := Nat.pow 10 (n - point).toNat
  let step := Double.unitsOfOne * Nat.pow 10 (point - n).toNat
  let scaled := Double.units b * up
  let below := scaled / step
  let rest := scaled % step
  match readsAs b (below * step) up, readsAs b ((below + 1) * step) up with
  | true, true =>
    if 2 * rest < step then some below
    else if step < 2 * rest then some (below + 1)
    else if tie = .even ∧ below % 2 = 0 then some below
    else some (below + 1)
  | true, false => some below
  | false, true => some (below + 1)
  | false, false => none

/-- Seventeen digits tell every double from all others. -/
def maxDigits : Nat := 17

/-- `m * 10 ^ e` without trailing zeros. -/
def ofSteps (m : Nat) (e : Int) : Decimal :=
  let ds := BadgeRules.digits m
  ⟨(ds.reverse.dropWhile (· = .zero)).reverse, ds.length + e⟩

/-- The shortest decimal of the positive finite double with magnitude `b`. -/
def shortest (tie : Tie) (b : Nat) : Decimal :=
  let point := pointOf b
  let found := (List.range' 1 maxDigits).findSome? fun n =>
    (withDigits tie b point n).map fun m => ofSteps m (point - n)
  found.getD ⟨[], 0⟩

/-- Written out in full, without an exponent. -/
def plain (negative : Bool) (d : Decimal) : Numeral :=
  if d.point ≤ 0 then
    { negative, whole := 0, fraction := List.replicate (-d.point).toNat .zero ++ d.digits }
  else
    let n := d.point.toNat
    { negative
      whole := ofDigits (d.digits.take n ++ List.replicate (n - d.digits.length) .zero)
      fraction := d.digits.drop n }

/-- One digit before the point, and an exponent. -/
def scientific (negative : Bool) (d : Decimal) : Numeral :=
  { negative
    whole := ofDigits (d.digits.take 1)
    fraction := d.digits.drop 1
    exponent := some (d.point - 1) }

end Decimal

/-! ### Two ways to write a double -/

/-- Very small and very large doubles get an exponent: below `10 ^ -5` and from `10 ^ 16` on. -/
def Decimal.document (negative : Bool) (d : Decimal) : Numeral :=
  if -4 ≤ d.point ∧ d.point ≤ 16 then
    let n := d.plain negative
    if n.fraction.isEmpty then { n with fraction := [.zero] } else n
  else d.scientific negative

def Numeral.ofFloat? (x : Float) : Option Numeral :=
  let b := Double.magnitude x
  let negative := Double.isNegative x
  if b = 0 then some { negative, whole := 0, fraction := [.zero] }
  else if b < Double.infinite then some ((Decimal.shortest .even b).document negative)
  else none

/-- A double in full: `1e21` has its 22 digits. -/
def inFull (x : Float) : List Char :=
  let b := Double.magnitude x
  let negative := Double.isNegative x
  if Double.infinite < b then "NaN".toList
  else if b = Double.infinite then (if negative then "-inf" else "inf").toList
  else if b = 0 then ({ negative, whole := 0 } : Numeral).chars
  else ((Decimal.shortest .up b).plain negative).chars

end BadgeRules
