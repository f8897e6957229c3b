import Georeferencing.Transform.Error

/-! # Batches of points

Points lie one after the other in a buffer, the ordinates of each in order. A batch operation
gives the destination buffer as it leaves it, together with the failure that stopped it, if any.

Dimensions, offsets and counts are natural numbers. Where they are words of 64 bits, the required
lengths, which are products of a count with a dimension, and their sums with an offset stay below
`2 ^ 64`.
-/

namespace Georeferencing

/-- The destination buffer after a batch, and what stopped it. -/
structure Batch (α : Type) where
  buffer : List α
  failure? : Option (TransformError α)

/-- Why a buffer of length `actual` can not hold `required` values, if so. -/
def capacityFault? {α : Type} (required actual : Nat) : Option (TransformError α) :=
  if actual < required then some (.bufferTooSmall required actual) else none

/-- The first `count` points of dimension `dimension` in a buffer. -/
def points {α : Type} (dimension : Nat) (buffer : List α) : Nat → List (List α)
  | 0 => []
  | count + 1 => buffer.take dimension :: points dimension (buffer.drop dimension) count

/-- Applies a function to each element until it fails: the results so far, and the failure. -/
def mapUntilError {β γ ε : Type} (f : β → Except ε γ) : List β → List γ × Option ε
  | [] => ([], none)
  | b :: bs =>
    match f b with
    | .error e => ([], some e)
    | .ok c =>
      let (cs, e) := mapUntilError f bs
      (c :: cs, e)

theorem length_points {α : Type} (dimension : Nat) (buffer : List α) (count : Nat) :
    (points dimension buffer count).length = count := by
  induction count generalizing buffer with
  | zero => rfl
  | succ count ih => simp [points, ih]

namespace Batch

variable {α : Type}

/-- The destination with its beginning replaced. -/
def overwrite (dst written : List α) : List α := written ++ dst.drop written.length

theorem length_overwrite {dst written : List α} (h : written.length ≤ dst.length) :
    (overwrite dst written).length = dst.length := by
  simp [overwrite]
  omega

/-- Transforms `count` points of `src` one by one and writes each before the next is read; the
first failure stops the batch. Both buffers must be large enough. -/
def pointwise (source target : Nat) (f : List α → Except (TransformError α) (List α))
    (src dst : List α) (count : Nat) : Batch α :=
  match capacityFault? (count * source) src.length, capacityFault? (count * target) dst.length with
  | some fault, _ => ⟨dst, some fault⟩
  | none, some fault => ⟨dst, some fault⟩
  | none, none =>
    let (written, failure?) := mapUntilError f (points source src count)
    ⟨overwrite dst written.flatten, failure?⟩

/-- Reads `sourceLength` values of a buffer at `srcOff` and has `run` write over the
`targetLength` values at `dstOff`, given the former ones. The regions may overlap: the source is
read first. -/
def within (sourceLength targetLength : Nat) (run : List α → List α → Batch α)
    (pts : List α) (srcOff dstOff : Nat) : Batch α :=
  match capacityFault? (srcOff + sourceLength) pts.length,
      capacityFault? (dstOff + targetLength) pts.length with
  | some fault, _ => ⟨pts, some fault⟩
  | none, some fault => ⟨pts, some fault⟩
  | none, none =>
    let src := (pts.drop srcOff).take sourceLength
    let out := run src ((pts.drop dstOff).take targetLength)
    ⟨pts.take dstOff ++ out.buffer ++ pts.drop (dstOff + targetLength), out.failure?⟩

/-- The buffer of a batch that succeeded. -/
def result (b : Batch α) : Except (TransformError α) (List α) :=
  match b.failure? with
  | some e => .error e
  | none => .ok b.buffer

end Batch

end Georeferencing
