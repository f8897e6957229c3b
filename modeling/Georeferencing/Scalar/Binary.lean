/-! # Binary expansions

The magnitude of a finite double, written exactly as an integer times a power of two. This is what
decimal digits and roots are computed from, in integer arithmetic.
-/

namespace Georeferencing

/-- The number `mantissa * 2 ^ exponent`. -/
structure Binary where
  mantissa : Nat
  exponent : Int
deriving DecidableEq, Repr

namespace Binary

def fractionField (word : UInt64) : Nat := (word &&& 0xfffffffffffff).toNat

def exponentField (word : UInt64) : Nat := ((word >>> 52) &&& 0x7ff).toNat

def isNegative (word : UInt64) : Bool := word >>> 63 == 1

/-- The magnitude of a finite double. A zero exponent field marks the numbers without the implicit
leading bit. -/
def ofBits (word : UInt64) : Binary :=
  if exponentField word = 0 then ⟨fractionField word, -1074⟩
  else ⟨fractionField word + 0x10000000000000, (exponentField word : Int) - 1075⟩

/-- Whether the neighbour below is only half as far as the neighbour above. -/
def isLowerBoundary (word : UInt64) : Bool :=
  fractionField word == 0 && 1 < exponentField word

end Binary

end Georeferencing
