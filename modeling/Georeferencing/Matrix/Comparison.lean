import Georeferencing.Matrix.Held

/-! # Comparing matrices

Equality within a tolerance looks at shapes and values only; strict equality also at the type that
holds the coefficients and at every bit of them.
-/

namespace Georeferencing

/-- Strictness of a comparison. -/
inductive Strictness where
  /-- The same holder, the same shape and the same bits. -/
  | strict
  /-- The same shape and equal values. -/
  | byContract
  /-- Matrices have no metadata: the same as `byContract`. -/
  | ignoreMetadata
  /-- The same shape and values equal up to rounding. -/
  | approximate
  /-- For matrices the same as `approximate`. -/
  | debug
deriving DecidableEq, Repr

inductive ComparisonError where
  | unknownMode (name : String)
deriving DecidableEq, Repr

def ComparisonError.message : ComparisonError → String
  | unknownMode name => "Unknown comparison mode: " ++ name

/-- The mode of a given name. Case, hyphens and underscores do not count; that only ASCII letters
are lowered loses nothing, since no other character has a lower case in the names. -/
def Strictness.ofName (name : String) : Except ComparisonError Strictness :=
  let letters := (name.toList.map Char.toLower).filter fun c => c != '-' && c != '_'
  match String.ofList letters with
  | "strict" => .ok .strict
  | "bycontract" => .ok .byContract
  | "ignoremetadata" => .ok .ignoreMetadata
  | "approximate" => .ok .approximate
  | "approximative" => .ok .approximate
  | "debug" => .ok .debug
  | _ => .error (.unknownMode name)

/-- Whether two optional values are both absent, or both present and related. -/
def agreeOptional {β : Type} (related : β → β → Bool) : Option β → Option β → Bool
  | none, none => true
  | some a, some b => related a b
  | _, _ => false

section Tolerance

variable {α : Type} [Scalar α]

/-- Equality of two values within `epsilon`, in relative mode times the larger magnitude. -/
def Scalar.equalWithin (epsilon : α) (relative : Bool) (a b : α) : Bool :=
  let tolerance := if relative then epsilon * Scalar.max (abs a) (abs b) else epsilon
  decide (abs (a - b) ≤ tolerance) || sameSpecial a b

/-- Equality of shapes, and of the listed coefficients within a tolerance. -/
def HeldMatrix.equalWithin (epsilon : α) (relative : Bool) (a b : HeldMatrix α) : Bool :=
  a.numRow == b.numRow && a.numCol == b.numCol &&
    (a.elements.toList.zip b.elements.toList).all fun (x, y) =>
      Scalar.equalWithin epsilon relative x y

/-- Tables compare numerically: the same shape and equal coefficients. -/
def Table.equal (a b : Table α) : Bool :=
  a.numRow == b.numRow && a.numCol == b.numCol &&
    (a.block.elements.toList.zip b.block.elements.toList).all fun (x, y) => x == y

/-- The relative tolerance of approximate comparisons. -/
def Strictness.threshold : α := 1e-14

end Tolerance

section Strict

variable {α : Type} [BitPattern α]

/-- Two arrays have the same bits as far as both go. -/
def sameWords (a b : Array α) : Bool :=
  (a.toList.zip b.toList).all fun (x, y) => BitPattern.same x y

/-- The same storage, the same shape and the same bits. -/
def StoredMatrix.same : StoredMatrix α → StoredMatrix α → Bool
  | small n _ x, small m _ y => n == m && sameWords x.elements.toArray y.elements.toArray
  | flat x, flat y =>
    x.numRow == y.numRow && x.numCol == y.numCol && sameWords x.elements y.elements
  | _, _ => false

/-- The words that a stored matrix is hashed by: its storage, its shape if the storage does not
determine it, and the bits of its coefficients. -/
def StoredMatrix.hashWords : StoredMatrix α → List UInt64
  | small n _ m => UInt64.ofNat (n - 1) :: m.elements.toList.map BitPattern.bits
  | flat m =>
    4 :: UInt64.ofNat m.numRow :: UInt64.ofNat m.numCol :: m.elements.toList.map BitPattern.bits

instance : BEq (StoredMatrix α) := ⟨StoredMatrix.same⟩

/-- Adds a matrix to a set of matrices, unless one with the same words is equal to it. -/
def StoredMatrix.insertDistinct (seen : List (StoredMatrix α)) (m : StoredMatrix α) :
    List (StoredMatrix α) :=
  if seen.any fun s => s.hashWords == m.hashWords && s == m then seen else m :: seen

/-- How many members the set of the listed matrices has. -/
def StoredMatrix.countDistinct (ms : List (StoredMatrix α)) : Nat :=
  (ms.foldl insertDistinct []).length

/-- The same holder, the same shape and the same bits. -/
def HeldMatrix.same (a b : HeldMatrix α) : Bool :=
  match a, b with
  | stored x, stored y => x == y
  | _, _ =>
    a.sameHolder b && a.numRow == b.numRow && a.numCol == b.numCol &&
      sameWords a.elements b.elements

end Strict

/-- Compares two matrices, either of which may be absent, with the given strictness. -/
def Strictness.equal {α : Type} [Scalar α] [BitPattern α] (mode : Strictness) :
    Option (HeldMatrix α) → Option (HeldMatrix α) → Bool :=
  agreeOptional <|
    match mode with
    | .strict => HeldMatrix.same
    | .byContract | .ignoreMetadata => HeldMatrix.equalWithin 0 false
    | .approximate | .debug => HeldMatrix.equalWithin Strictness.threshold true

end Georeferencing
