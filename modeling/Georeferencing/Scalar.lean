/-! # Scalars

Everything below is written once over an arithmetic. `Scalar` asks for the field operations, the
decimal literals, a numerical equality and an order; no law is assumed, so the same definitions
run on doubles and can be studied over an exact field. A value that differs from itself plays the
part of "not a number".
-/

namespace Georeferencing

/-- The arithmetic in which coefficients and ordinates are computed. -/
class Scalar (α : Type) extends Zero α, One α, Add α, Sub α, Mul α, Div α, Neg α,
    OfScientific α, BEq α, LT α, LE α where
  decidableLT : DecidableLT α
  decidableLE : DecidableLE α

instance instDecidableLTScalar {α : Type} [Scalar α] : DecidableLT α := Scalar.decidableLT

instance instDecidableLEScalar {α : Type} [Scalar α] : DecidableLE α := Scalar.decidableLE

/-- The functions of analysis that projections and norms are built from. -/
class Elementary (α : Type) where
  pi : α
  sqrt : α → α
  hypot : α → α → α
  sin : α → α
  cos : α → α
  tan : α → α
  atan : α → α
  exp : α → α
  log : α → α
  pow : α → α → α

/-- Scalars that are stored as a word of 64 bits, by which they are told apart exactly. -/
class BitPattern (α : Type) where
  bits : α → UInt64

/-- The same word: two values that no operation can distinguish. -/
def BitPattern.same {α : Type} [BitPattern α] (a b : α) : Bool :=
  bits a == bits b

namespace Scalar

variable {α : Type} [Scalar α]

/-- One divided by zero: infinite where the arithmetic has infinities. -/
def infinity : α := 1 / 0

/-- Zero divided by zero: not a number where the arithmetic has such a value. -/
def nan : α := 0 / 0

/-- Only what is not a number differs from itself. -/
def isNaN (a : α) : Bool := !(a == a)

/-- A number is finite when subtracting it from itself leaves zero. -/
def isFinite (a : α) : Bool := a - a == 0

def isInfinite (a : α) : Bool := a == a && !isFinite a

def abs (a : α) : α := if a < 0 then -a else a

/-- The larger of two values, an operand that is not a number being ignored. -/
def max (a b : α) : α :=
  if isNaN a then b else if a < b then b else a

/-- Sums start from minus zero, the neutral element of addition even among signed zeros. -/
def sum (xs : List α) : α := xs.foldl (· + ·) (-0)

def product (xs : List α) : α := xs.foldl (· * ·) 1

def square (a : α) : α := a * a

/-- Magnitudes in increasing order, what is not a number above all others. -/
def magnitudeLE (a b : α) : Bool := isNaN b || decide (abs a ≤ abs b)

/-- The distance from one to the next double, two to the power minus 52. -/
def epsilon : α := 1 / 4503599627370496.0

/-- Whether `value` can not be told from zero relative to `scale`. A value that is not a number
is negligible, which is why the test is a negated comparison. -/
def vanishesBeside (value scale : α) : Bool := !decide (epsilon * scale < abs value)

/-- Equality of the values that no tolerance can accept: two that are not numbers, or the same
infinity. -/
def sameSpecial (a b : α) : Bool := (isNaN a && isNaN b) || (isInfinite a && a == b)

end Scalar

namespace Elementary

variable {α : Type} [Scalar α] [Elementary α]

def halfPi : α := pi / 2.0

def quarterPi : α := pi / 4.0

/-- One degree in radians. -/
def degree : α := pi / 180.0

def toRadians (angle : α) : α := angle * degree

end Elementary

end Georeferencing
