import Georeferencing.Proofs.Exact

/-! # Numbers with special values

An ordered field with two infinities and a value that is not a number, under the rules that
IEEE arithmetic has for them. Finite results are neither rounded nor too large, and there is only
one zero, which divides like a positive one.
-/

namespace Georeferencing

inductive Extended (K : Type) where
  | finite (x : K)
  | infinite (negative : Bool)
  | nan
deriving DecidableEq, Repr

namespace Extended

variable {K : Type} [Field K] [LinearOrder K]

def add : Extended K → Extended K → Extended K
  | finite x, finite y => finite (x + y)
  | finite _, infinite s => infinite s
  | infinite s, finite _ => infinite s
  | infinite s, infinite t => if s = t then infinite s else nan
  | nan, _ | _, nan => nan

def neg : Extended K → Extended K
  | finite x => finite (-x)
  | infinite s => infinite !s
  | nan => nan

/-- Zero times an infinity is not a number. -/
def mul : Extended K → Extended K → Extended K
  | finite x, finite y => finite (x * y)
  | finite x, infinite s => if x = 0 then nan else infinite (xor (decide (x < 0)) s)
  | infinite s, finite x => if x = 0 then nan else infinite (xor (decide (x < 0)) s)
  | infinite s, infinite t => infinite (xor s t)
  | nan, _ | _, nan => nan

def div : Extended K → Extended K → Extended K
  | finite x, finite y =>
    if y = 0 then (if x = 0 then nan else infinite (decide (x < 0))) else finite (x / y)
  | finite _, infinite _ => finite 0
  | infinite s, finite y => infinite (xor s (decide (y < 0)))
  | infinite _, infinite _ => nan
  | nan, _ | _, nan => nan

def lt : Extended K → Extended K → Bool
  | finite x, finite y => x < y
  | finite _, infinite t => !t
  | infinite s, finite _ => s
  | infinite s, infinite t => s && !t
  | nan, _ | _, nan => false

def eq : Extended K → Extended K → Bool
  | finite x, finite y => x = y
  | infinite s, infinite t => s = t
  | _, _ => false

instance : Scalar (Extended K) where
  zero := finite 0
  one := finite 1
  add := add
  sub a b := add a (neg b)
  mul := mul
  div := div
  neg := neg
  ofScientific m s e := finite (OfScientific.ofScientific m s e)
  beq := eq
  lt a b := lt a b = true
  le a b := (lt a b || eq a b) = true
  decidableLT _ _ := inferInstanceAs (Decidable (_ = true))
  decidableLE _ _ := inferInstanceAs (Decidable (_ = true))

/-- Elementary functions of finite numbers; of anything else they are not a number. -/
@[reducible]
def elementary (e : Elementary K) : Elementary (Extended K) where
  pi := finite e.pi
  sqrt := lift e.sqrt
  hypot := lift₂ e.hypot
  sin := lift e.sin
  cos := lift e.cos
  tan := lift e.tan
  atan := lift e.atan
  exp := lift e.exp
  log := lift e.log
  pow := lift₂ e.pow
where
  lift (f : K → K) : Extended K → Extended K
    | finite x => finite (f x)
    | _ => nan
  lift₂ (f : K → K → K) : Extended K → Extended K → Extended K
    | finite x, finite y => finite (f x y)
    | _, _ => nan

variable (x y : K) (s : Bool)

theorem zero_eq : (0 : Extended K) = finite 0 := rfl

theorem one_eq : (1 : Extended K) = finite 1 := rfl

@[simp] theorem finite_add : finite x + finite y = finite (x + y) := rfl

@[simp] theorem finite_add_infinite : finite x + infinite s = infinite s := rfl

@[simp] theorem infinite_add_finite : infinite s + finite x = infinite s := rfl

@[simp] theorem nan_add (a : Extended K) : nan + a = nan := by
  cases a <;> rfl

@[simp] theorem add_nan (a : Extended K) : a + nan = nan := by
  cases a <;> rfl

@[simp] theorem finite_sub : finite x - finite y = finite (x - y) := by
  rw [sub_eq_add_neg]
  rfl

@[simp] theorem neg_finite : -finite x = finite (-x) := rfl

@[simp] theorem finite_mul : finite x * finite y = finite (x * y) := rfl

@[simp] theorem infinite_mul_zero : infinite s * finite (0 : K) = nan := if_pos rfl

theorem infinite_mul_finite {x : K} (h : 0 < x) : infinite s * finite x = infinite s := by
  change (if x = 0 then nan else infinite (xor (decide (x < 0)) s)) = _
  rw [if_neg h.ne', decide_eq_false h.not_gt, Bool.false_xor]

theorem finite_div {y : K} (h : y ≠ 0) : finite x / finite y = finite (x / y) := if_neg h

theorem ofScientific_eq (m : ℕ) (e : Bool) (d : ℕ) :
    (OfScientific.ofScientific m e d : Extended K) = finite (OfScientific.ofScientific m e d) := rfl

@[simp] theorem finite_lt : finite x < finite y ↔ x < y := by
  change decide (x < y) = true ↔ _
  rw [decide_eq_true_iff]

@[simp] theorem finite_le : finite x ≤ finite y ↔ x ≤ y := by
  change (decide (x < y) || decide (x = y)) = true ↔ _
  rw [Bool.or_eq_true, decide_eq_true_iff, decide_eq_true_iff, le_iff_lt_or_eq]

@[simp] theorem finite_beq : (finite x == finite y) = decide (x = y) := rfl

@[simp] theorem abs_finite [IsStrictOrderedRing K] : Scalar.abs (finite x) = finite |x| := by
  simp only [Scalar.abs, zero_eq, finite_lt, neg_finite]
  split
  · next h => rw [abs_of_neg h]
  · next h => rw [abs_of_nonneg (not_lt.mp h)]

@[simp] theorem isFinite_finite : Scalar.isFinite (finite x) = true := by
  rw [Scalar.isFinite, finite_sub, zero_eq, finite_beq, sub_self, decide_eq_true rfl]

theorem eq_finite_of_isFinite {a : Extended K} (h : Scalar.isFinite a = true) :
    ∃ x, a = finite x := by
  cases a with
  | finite x => exact ⟨x, rfl⟩
  | infinite s => cases s <;> cases h
  | nan => cases h

theorem infinity_eq [IsStrictOrderedRing K] : (Scalar.infinity : Extended K) = infinite false := by
  change div (finite 1) (finite 0) = _
  rw [div, if_pos rfl, if_neg one_ne_zero, decide_eq_false zero_lt_one.not_gt]

end Extended

end Georeferencing
