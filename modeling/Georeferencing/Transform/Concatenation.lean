import Georeferencing.Transform.Basic

/-! # Concatenation

A list of transforms becomes one that applies them in order. On the way identities are dropped and
neighbouring matrices are multiplied, so that what is kept holds neither an identity nor two
matrices in a row.
-/

namespace Georeferencing.Transform

variable {α : Type} [Scalar α]

/-- What is kept of the steps seen so far, the last one first, and the dimension they lead to. -/
structure Concatenation (α : Type) where
  kept : List (Transform α)
  target : Nat

/-- Adds a matrix behind the steps kept so far: it is multiplied with a matrix kept last, and the
product is dropped if it is the identity. -/
def keepLinear (kept : List (Transform α)) (second : Projective α) :
    Except (TransformError α) (List (Transform α)) :=
  match kept with
  | linear first :: before => do
    let product ← TransformError.ofMatrix (second.matrix.mul (.stored first.matrix))
    let merged ← TransformError.ofMatrix (Projective.ofMatrix product)
    return if merged.isIdentity then before else linear merged :: before
  | _ => .ok (linear second :: kept)

/-- Adds one step, which must take the points that the steps before it give. -/
def Concatenation.add (c : Concatenation α) (step : Transform α) :
    Except (TransformError α) (Concatenation α) := do
  if step.source ≠ c.target then
    .error (.mismatchedDimension c.target step.source)
  else if step.isIdentity then
    return ⟨c.kept, step.target⟩
  else
    match step with
    | linear second => return ⟨← keepLinear c.kept second, step.target⟩
    | _ => return ⟨step :: c.kept, step.target⟩

/-- The transform made of the kept steps, given in the order in which they apply. -/
def ofKept (dimension : Nat) : List (Transform α) → Transform α
  | [] => linear (.identity dimension)
  | [step] => step
  | steps => chain steps

/-- The transform that applies the given ones in order, simplified. -/
def concatenate (steps : List (Transform α)) : Except (TransformError α) (Transform α) :=
  match steps with
  | [] => .error (.invalidParameter .emptyConcatenation)
  | first :: _ => do
    let c ← steps.foldlM Concatenation.add ⟨[], first.source⟩
    return ofKept first.source c.kept.reverse

end Georeferencing.Transform
