import Georeferencing.Matrix.Error

/-! # Checked steps

Natural numbers that are subtracted stop at zero, and lists that are read past their end give a
default. A computation that must not rely on this takes such steps one by one, each of which is
checked.
-/

namespace Georeferencing

/-- What stops a computation that checks its steps. -/
inductive StepFault where
  /-- An operation on a matrix fails. -/
  | refused (error : MatrixError)
  /-- A place behind the end of a list is read. -/
  | readOutside (place length : Nat)
  /-- A natural number is subtracted from a smaller one. -/
  | belowZero (minuend subtrahend : Nat)
deriving DecidableEq, Repr

namespace Checked

/-- The outcome of an operation on a matrix. -/
def ofMatrix {β : Type} (outcome : Except MatrixError β) : Except StepFault β :=
  outcome.mapError .refused

def subtract (a b : Nat) : Except StepFault Nat :=
  if b ≤ a then .ok (a - b) else .error (.belowZero a b)

def read {β : Type} (values : List β) (place : Nat) : Except StepFault β :=
  match values[place]? with
  | some value => .ok value
  | none => .error (.readOutside place values.length)

theorem ofMatrix_eq_ok {β : Type} {outcome : Except MatrixError β} {b : β} :
    ofMatrix outcome = .ok b ↔ outcome = .ok b := by
  cases outcome with
  | error e => exact ⟨nofun, nofun⟩
  | ok a =>
    change (Except.ok a : Except StepFault β) = .ok b ↔ _
    rw [Except.ok.injEq, Except.ok.injEq]

theorem ofMatrix_eq_error {β : Type} {outcome : Except MatrixError β} {fault : StepFault} :
    ofMatrix outcome = .error fault ↔ ∃ e, fault = .refused e ∧ outcome = .error e := by
  cases outcome with
  | error e =>
    constructor
    · rintro ⟨⟩
      exact ⟨e, rfl, rfl⟩
    · rintro ⟨_, rfl, ⟨⟩⟩
      rfl
  | ok a => exact ⟨nofun, nofun⟩

theorem subtract_of_le {a b : Nat} (h : b ≤ a) : subtract a b = .ok (a - b) := if_pos h

theorem read_of_getElem? {β : Type} {values : List β} {place : Nat} {value : β}
    (h : values[place]? = some value) : read values place = .ok value := by
  rw [read, h]

end Checked

end Georeferencing
