/-!
# Doubles by their bits

The bits of a double without the sign bit, read as a natural number, grow with its magnitude.
`Double.units` is that magnitude as a whole number of units, a unit being the smallest positive
double.
-/

namespace BadgeRules.Double

/-- The weight of the sign bit, the highest of 64. -/
def signWeight : Nat := 0x8000000000000000

/-- The weight of the lowest exponent bit. The 52 bits below it are the fraction. -/
def exponentWeight : Nat := 0x10000000000000

/-- The bits of `x` without the sign bit. -/
def magnitude (x : Float) : Nat := x.toBits.toNat % signWeight

def isNegative (x : Float) : Bool := signWeight ≤ x.toBits.toNat

/-- The magnitude bits of infinity: all finite doubles lie below. -/
def infinite : Nat := 2047 * exponentWeight

/-- How many units make up `1`. -/
def unitsOfOne : Nat := Nat.pow 2 1074

/-- The value of magnitude bits `b` in units. At `infinite` it is the value that the next double
would have. -/
def units (b : Nat) : Nat :=
  let exponent := b / exponentWeight
  if exponent = 0 then b
  else (exponentWeight + b % exponentWeight) * Nat.pow 2 (exponent - 1)

/-- The largest magnitude up to which every integer is a double. -/
def maxExact : Nat := 0x20000000000000

/-- The integer that `x` is, if it is one of magnitude at most `maxExact`. -/
def exactInt? (x : Float) : Option Int :=
  let n := units (magnitude x)
  if n % unitsOfOne = 0 ∧ n / unitsOfOne ≤ maxExact then
    some (if isNegative x then -(n / unitsOfOne : Nat) else (n / unitsOfOne : Nat))
  else none

end BadgeRules.Double
