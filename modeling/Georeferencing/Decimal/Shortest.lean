import Georeferencing.Decimal
import Georeferencing.Scalar.Binary

/-! # Shortest decimal of a double

The decimal with the fewest digits among those that are nearer to a double than to any other one,
and of those the one nearest to the double. All comparisons are made on integers: a double and the
ends of its rounding interval are fractions with a common denominator.
-/

namespace Georeferencing.Decimal

/-- The decimals that read back as one double: those between `low` and `high`, where all numbers
are divided by `denominator`. The ends belong to the interval if `closed`. -/
structure RoundingInterval where
  low : Nat
  value : Nat
  high : Nat
  denominator : Nat
  closed : Bool
deriving DecidableEq, Repr

namespace RoundingInterval

/-- The interval around a finite double. Its ends are the midpoints to the two neighbours; a tie
between two doubles goes to the even one. -/
def ofBits (word : UInt64) : RoundingInterval :=
  let b := Binary.ofBits word
  let below := if Binary.isLowerBoundary word then 1 else 2
  let scale := Nat.pow 2 (b.exponent - 2).toNat
  { low := (4 * b.mantissa - below) * scale
    value := 4 * b.mantissa * scale
    high := (4 * b.mantissa + 2) * scale
    denominator := Nat.pow 2 (2 - b.exponent).toNat
    closed := b.mantissa % 2 == 0 }

/-- The power of ten that the leading digit of the value stands for. -/
def magnitude (r : RoundingInterval) : Int :=
  if r.denominator ≤ r.value then
    ((Nat.toDigits 10 (r.value / r.denominator)).length : Int) - 1
  else
    let places := (Nat.toDigits 10 (r.denominator / r.value)).length
    if r.denominator ≤ r.value * Nat.pow 10 (places - 1) then -((places : Int) - 1)
    else -(places : Int)

/-- Whether `a` may stand below `b` at an end of the interval. -/
def admits (r : RoundingInterval) (a b : Nat) : Bool :=
  if r.closed then a ≤ b else a < b

/-- The decimal of the interval on the grid of multiples of `10 ^ exponent` that is nearest to the
value, if there is one: it is one of the value's two neighbours. The upper one wins a tie. -/
def onGrid? (r : RoundingInterval) (exponent : Int) : Option Decimal :=
  let up := Nat.pow 10 (-exponent).toNat
  let step := r.denominator * Nat.pow 10 exponent.toNat
  let below := r.value * up / step
  let rest := r.value * up % step
  let belowFits := r.admits (r.low * up) (below * step)
  let aboveFits := r.admits ((below + 1) * step) (r.high * up)
  if aboveFits && (!belowFits || step ≤ 2 * rest) then some ⟨below + 1, exponent⟩
  else if belowFits then some ⟨below, exponent⟩
  else none

/-- The first grid with a hit among `count` ever finer ones. -/
def search (r : RoundingInterval) : Nat → Int → Option Decimal
  | 0, _ => none
  | count + 1, exponent => (r.onGrid? exponent).orElse fun _ => search r count (exponent - 1)

end RoundingInterval

/-- The shortest decimal of the magnitude of a finite double: 17 digits always suffice. -/
def shortest (word : UInt64) : Decimal :=
  let r := RoundingInterval.ofBits word
  if r.value = 0 then ⟨0, 0⟩
  else trimZeros 17 ((r.search 17 r.magnitude).getD ⟨0, 0⟩)

end Georeferencing.Decimal
