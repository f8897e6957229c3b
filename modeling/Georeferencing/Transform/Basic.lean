import Georeferencing.Projection.Mercator
import Georeferencing.Transform.Projective

/-! # Transforms

A transform takes points of one dimension to points of another. It is a matrix, a Mercator
projection or its inverse, a transform supplied from outside, or a chain of transforms applied one
after the other. All of them work on batches; a single point is a batch of one.
-/

namespace Georeferencing

/-- A transform supplied from outside. `run` is given the source buffer, the destination buffer
and the number of points. -/
structure ExternalTransform (α : Type) where
  source : Nat
  target : Nat
  isIdentity : Bool := false
  run : List α → List α → Nat → Batch α
  identity_dimension : isIdentity = true → source = target := by simp
  length_run : ∀ src dst count, (run src dst count).buffer.length = dst.length

inductive Transform (α : Type) where
  | linear (t : Projective α)
  | mercator (m : Mercator α)
  | inverseMercator (m : Mercator α)
  | external (t : ExternalTransform α) (inverse : Except (TransformError α) (Transform α))
  | chain (steps : List (Transform α))

namespace Transform

variable {α : Type}

/-- The dimension of the points that a transform takes; none for a chain without steps. -/
def source : Transform α → Nat
  | linear t => t.source
  | mercator _ => 2
  | inverseMercator _ => 2
  | external t _ => t.source
  | chain [] => 0
  | chain (step :: _) => step.source

mutual

/-- The dimension of the points that a transform gives; none for a chain without steps. -/
def target : Transform α → Nat
  | linear t => t.target
  | mercator _ => 2
  | inverseMercator _ => 2
  | external t _ => t.target
  | chain steps => lastTarget steps 0

/-- The target dimension of the last of some steps, `before` if there are none. -/
def lastTarget : List (Transform α) → Nat → Nat
  | [], before => before
  | step :: rest, _ => lastTarget rest step.target

end

/-- The transform as a single matrix, if it is given by one. -/
def linear? : Transform α → Option (Projective α)
  | linear t => some t
  | _ => none

/-- The kind of the transform and its shape. -/
def describe (t : Transform α) : String :=
  match t.linear? with
  | some p => s!"LinearTransform({p.matrix.numRow}×{p.matrix.numCol})"
  | none => s!"MathTransform({t.source} → {t.target})"

variable [Scalar α]

mutual

/-- Whether the transform is known to leave every point unchanged. -/
def isIdentity : Transform α → Bool
  | linear t => t.isIdentity
  | mercator _ => false
  | inverseMercator _ => false
  | external t _ => t.isIdentity
  | chain steps => allIdentity steps

def allIdentity : List (Transform α) → Bool
  | [] => true
  | step :: rest => step.isIdentity && allIdentity rest

end

mutual

/-- The transform going the other way. -/
def inverse : Transform α → Except (TransformError α) (Transform α)
  | linear t => do return linear (← TransformError.ofMatrix t.inverse)
  | mercator m => .ok (inverseMercator m)
  | inverseMercator m => .ok (mercator m)
  | external _ inverse => inverse
  | chain steps => do return chain (← inverseSteps steps)

/-- The inverses of some steps in reverse order, the last step being inverted first. -/
def inverseSteps : List (Transform α) → Except (TransformError α) (List (Transform α))
  | [] => .ok []
  | step :: rest => do
    let later ← inverseSteps rest
    let first ← step.inverse
    return later ++ [first]

end

variable [Elementary α]

mutual

/-- Transforms `count` points read from `src` and writes them over `dst`. A chain writes only if
all of its steps succeed. -/
def applyBatch : Transform α → List α → List α → Nat → Batch α
  | linear t, src, dst, count => t.applyBatch src dst count
  | mercator m, src, dst, count => m.applyBatch src dst count
  | inverseMercator m, src, dst, count => m.unprojectBatch src dst count
  | external t _, src, dst, count => t.run src dst count
  | chain steps, src, dst, count =>
    let sourceLength := count * (chain steps).source
    match capacityFault? sourceLength src.length,
        capacityFault? (count * (chain steps).target) dst.length with
    | some fault, _ => ⟨dst, some fault⟩
    | none, some fault => ⟨dst, some fault⟩
    | none, none =>
      match runSteps steps (src.take sourceLength) count with
      | .ok written => ⟨Batch.overwrite dst written, none⟩
      | .error e => ⟨dst, some e⟩

/-- Passes a buffer of `count` points through some steps, each writing to a buffer of its own. -/
def runSteps : List (Transform α) → List α → Nat → Except (TransformError α) (List α)
  | [], buffer, _ => .ok buffer
  | step :: rest, buffer, count => do
    let written ← (step.applyBatch buffer (List.replicate (count * step.target) 0) count).result
    runSteps rest written count

end

/-- Transforms points within one buffer, reading at `srcOff` and writing at `dstOff`; the regions
may overlap. -/
def applyWithin (t : Transform α) (pts : List α) (srcOff dstOff count : Nat) : Batch α :=
  match t with
  | mercator m => m.applyWithin pts srcOff dstOff count
  | _ => .within (count * t.source) (count * t.target) (t.applyBatch · · count) pts srcOff dstOff

/-- Transforms one point. -/
def applyPoint (t : Transform α) (point : List α) : Except (TransformError α) (List α) :=
  if t.source = point.length then
    (t.applyBatch point (List.replicate t.target 0) 1).result
  else .error (.mismatchedDimension t.source point.length)

end Transform

end Georeferencing
