import Georeferencing.Scalar.Binary

/-! # Length of a hypotenuse

The double nearest to `√(x² + y²)`. The squares are added and the root is taken on integers, so no
intermediate result overflows, vanishes or is rounded.
-/

namespace Georeferencing.Double

/-- Refines a lower bound of the integer square root of `n` by the powers of two below
`2 ^ count`, the largest first. -/
def refineRoot (n : Nat) : Nat → Nat → Nat
  | 0, root => root
  | count + 1, root =>
    let candidate := root + 2 ^ count
    refineRoot n count (if candidate * candidate ≤ n then candidate else root)

/-- The integer square root. -/
def integerRoot (n : Nat) : Nat := refineRoot n (n.log2 / 2 + 1) 0

/-- The double nearest to the square root of `n * 4 ^ exponent`. The root is taken to 62 bits, and
its last bit is set if anything was lost, so that only the final conversion rounds. -/
def nearestRoot (n : Nat) (exponent : Int) : Float :=
  if n = 0 then 0.0
  else
    let shift : Int := (121 - (n.log2 : Int)) / 2
    let scaled := if 0 ≤ shift then n <<< (2 * shift.toNat) else n >>> (2 * (-shift).toNat)
    let root := integerRoot scaled
    let isExact := root * root == scaled && (0 ≤ shift || scaled <<< (2 * (-shift).toNat) == n)
    let sticky := if isExact then root else root ||| 1
    sticky.toUInt64.toFloat.scaleB (exponent - shift)

/-- The length of the hypotenuse over the sides `x` and `y`; an infinite side prevails over one
that is not a number. -/
def hypotenuse (x y : Float) : Float :=
  if x.isInf || y.isInf then 1.0 / 0.0
  else if x.isNaN || y.isNaN then 0.0 / 0.0
  else
    let a := Binary.ofBits x.toBits
    let b := Binary.ofBits y.toBits
    let exponent := min a.exponent b.exponent
    let p := a.mantissa <<< (a.exponent - exponent).toNat
    let q := b.mantissa <<< (b.exponent - exponent).toNat
    nearestRoot (p * p + q * q) exponent

end Georeferencing.Double
