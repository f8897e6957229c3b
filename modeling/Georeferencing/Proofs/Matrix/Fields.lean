import Mathlib.Tactic.IntervalCases
import Georeferencing.Matrix.Fields
import Georeferencing.Proofs.Outcome

/-! # Numbered fields as blocks

A record of numbered fields is a block, and its tables are what blocks do: no field is named at the
place of another one, none is forgotten, and what is in no table is outside of the shape.
-/

namespace Georeferencing

variable {α F : Type} {n : ℕ}

/-- A coefficient is replaced at its place in row-major order. -/
theorem Block.set_eq_setIfInBounds {r c : ℕ} (b : Block r c α) (row column : ℕ) (value : α) :
    b.set row column value = if row < r ∧ column < c then
        .ok ⟨b.elements.setIfInBounds (row * c + column) value⟩
      else .error (.indexOutOfBounds row column r c) := by
  rw [set]
  by_cases hinside : row < r ∧ column < c
  · rw [if_pos hinside, if_pos hinside]
    refine congrArg Except.ok (Block.ext fun i j => ?_)
    have hplace : row * c + column = i.val * c + j.val ↔ i.val = row ∧ j.val = column := by
      constructor
      · intro h
        have hdiv := congrArg (· / c) h
        have hmod := congrArg (· % c) h
        simp only [rowMajor_div hinside.2, rowMajor_div j.isLt] at hdiv
        simp only [rowMajor_mod hinside.2, rowMajor_mod j.isLt] at hmod
        exact ⟨hdiv.symm, hmod.symm⟩
      · rintro ⟨rfl, rfl⟩
        rfl
    rw [entry_ofFn]
    simp only [entry, Vector.getElem_setIfInBounds, hplace, eq_comm]
  · rw [if_neg hinside, if_neg hinside]

/-- The tables of a record that is seen as a block are those of the block. -/
structure AgreesWithBlock (toBlock : F → Square n α) (get : F → ℕ → ℕ → Except MatrixError α)
    (set : F → ℕ → ℕ → α → Except MatrixError F) (elements : F → Array α)
    (refill : F → Array α → Except MatrixError F) (transpose : F → F) : Prop where
  injective : Function.Injective toBlock
  get_eq : ∀ m row column, get m row column = (toBlock m).get row column
  set_eq : ∀ m row column value,
    toBlock <$> set m row column value = (toBlock m).set row column value
  elements_eq : ∀ m, elements m = (toBlock m).elements.toArray
  refill_eq : ∀ m values, toBlock <$> refill m values = match Block.ofElements? n n values with
    | some b => .ok b
    | none => .error (.mismatchedLength (n * n) values.size)
  transpose_eq : ∀ m, toBlock (transpose m) = (toBlock m).transpose

theorem Fields1.agreesWithBlock : AgreesWithBlock (α := α) toBlock get set elements refill
    transpose where
  injective := by
    rintro ⟨_⟩ ⟨_⟩ ⟨⟩
    rfl
  get_eq m row column := by
    rcases row with _ | row <;> rcases column with _ | column <;> rfl
  set_eq m row column value := by
    rw [Block.set_eq_setIfInBounds]
    rcases row with _ | row <;> rcases column with _ | column <;> rfl
  elements_eq m := rfl
  refill_eq m values := by
    unfold refill Block.ofElements?
    split
    · refine congrArg (fun e => Except.ok (Block.mk e)) (Vector.ext fun k hk => ?_)
      interval_cases k
      rfl
    · rfl
  transpose_eq m := rfl

theorem Fields2.agreesWithBlock : AgreesWithBlock (α := α) toBlock get set elements refill
    transpose where
  injective := by
    rintro ⟨_⟩ ⟨_⟩ ⟨⟩
    rfl
  get_eq m row column := by
    rcases row with _ | _ | row <;> rcases column with _ | _ | column <;> rfl
  set_eq m row column value := by
    rw [Block.set_eq_setIfInBounds]
    rcases row with _ | _ | row <;> rcases column with _ | _ | column <;> rfl
  elements_eq m := rfl
  refill_eq m values := by
    unfold refill Block.ofElements?
    split
    · refine congrArg (fun e => Except.ok (Block.mk e)) (Vector.ext fun k hk => ?_)
      interval_cases k <;> rfl
    · rfl
  transpose_eq m := by
    ext ⟨i, hi⟩ ⟨j, hj⟩
    rw [Block.entry_transpose]
    interval_cases i <;> interval_cases j <;> rfl

theorem Fields3.agreesWithBlock : AgreesWithBlock (α := α) toBlock get set elements refill
    transpose where
  injective := by
    rintro ⟨_⟩ ⟨_⟩ ⟨⟩
    rfl
  get_eq m row column := by
    rcases row with _ | _ | _ | row <;> rcases column with _ | _ | _ | column <;> rfl
  set_eq m row column value := by
    rw [Block.set_eq_setIfInBounds]
    rcases row with _ | _ | _ | row <;> rcases column with _ | _ | _ | column <;> rfl
  elements_eq m := rfl
  refill_eq m values := by
    unfold refill Block.ofElements?
    split
    · refine congrArg (fun e => Except.ok (Block.mk e)) (Vector.ext fun k hk => ?_)
      interval_cases k <;> rfl
    · rfl
  transpose_eq m := by
    ext ⟨i, hi⟩ ⟨j, hj⟩
    rw [Block.entry_transpose]
    interval_cases i <;> interval_cases j <;> rfl

theorem Fields4.agreesWithBlock : AgreesWithBlock (α := α) toBlock get set elements refill
    transpose where
  injective := by
    rintro ⟨_⟩ ⟨_⟩ ⟨⟩
    rfl
  get_eq m row column := by
    rcases row with _ | _ | _ | _ | row <;> rcases column with _ | _ | _ | _ | column <;> rfl
  set_eq m row column value := by
    rw [Block.set_eq_setIfInBounds]
    rcases row with _ | _ | _ | _ | row <;> rcases column with _ | _ | _ | _ | column <;> rfl
  elements_eq m := rfl
  refill_eq m values := by
    unfold refill Block.ofElements?
    split
    · refine congrArg (fun e => Except.ok (Block.mk e)) (Vector.ext fun k hk => ?_)
      interval_cases k <;> rfl
    · rfl
  transpose_eq m := by
    ext ⟨i, hi⟩ ⟨j, hj⟩
    rw [Block.entry_transpose]
    interval_cases i <;> interval_cases j <;> rfl

end Georeferencing
