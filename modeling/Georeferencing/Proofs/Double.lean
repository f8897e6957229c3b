import Mathlib
import Georeferencing.Scalar.Double

/-! # Special values of doubles

How the arithmetic of doubles treats infinities and what is not a number, read off the unpacked form
of a double, in which the special values are constructors. Of the rounding of finite values only
this is said, that a value which needs none is left alone: packing undoes unpacking, so that adding
to minus zero and multiplying by one leave the word of the other operand as it is. Where the sign of
a zero does not count, adding any zero changes nothing, and a sum of zeros and one more term is that
term.
-/

namespace Georeferencing.Double

open Float.Model Float.Model.UnpackedFloat

/-- A double by sign, mantissa and exponent, or as a special value. -/
def unpacked (x : Float) : UnpackedFloat := x.toModel.unpack

variable {x y : Float} {s t : Sign}

theorem unpacked_sub (x y : Float) :
    unpacked (x - y) = (Float.Model.pack (sub .binary64 (unpacked x) (unpacked y))).unpack := rfl

theorem unpacked_mul (x y : Float) :
    unpacked (x * y) = (Float.Model.pack (mul .binary64 (unpacked x) (unpacked y))).unpack := rfl

theorem unpacked_div (x y : Float) :
    unpacked (x / y) = (Float.Model.pack (div .binary64 (unpacked x) (unpacked y))).unpack := rfl

theorem unpacked_neg (x : Float) :
    unpacked (-x) = (Float.Model.pack (neg (unpacked x))).unpack := rfl

theorem lt_iff : x < y ↔ (unpacked x).compare (unpacked y) = some .lt := by
  change decide ((unpacked x).lt (unpacked y) = true) = true ↔ _
  rw [decide_eq_true_iff, UnpackedFloat.lt, beq_iff_eq]

theorem le_iff : x ≤ y ↔ ((unpacked x).compare (unpacked y)).any (·.isLE) = true := by
  change decide ((unpacked x).le (unpacked y) = true) = true ↔ _
  rw [decide_eq_true_iff, UnpackedFloat.le]

theorem beq_iff : (x == y) = true ↔ (unpacked x).compare (unpacked y) = some .eq := by
  change (unpacked x).beq (unpacked y) = true ↔ _
  rw [UnpackedFloat.beq, beq_iff_eq]

theorem unpack_pack_notANumber : (Float.Model.pack .notANumber).unpack = .notANumber := rfl

theorem unpack_pack_infinity (s : Sign) :
    (Float.Model.pack (.infinity s)).unpack = .infinity s := by
  cases s <;> rfl

theorem unpack_pack_zero (s : Sign) : (Float.Model.pack (.zero s)).unpack = .zero s := by
  cases s <;> rfl

theorem unpack_ne_notANumber {b : BitVec Format.binary64.numBits}
    (h : unpackExponent b ≠ -1#11) : UnpackedFloat.unpack .binary64 b ≠ .notANumber := by
  rw [UnpackedFloat.unpack]
  simp only
  rw [if_neg h]
  split
  · split <;> simp
  · simp

/-- Packing may round a finite value to an infinity, but never to something that is not a number. -/
theorem unpack_pack_ne_notANumber {u : UnpackedFloat} (h : u ≠ .notANumber) :
    (Float.Model.pack u).unpack ≠ .notANumber := by
  cases u with
  | notANumber => exact absurd rfl h
  | infinity s => simp [unpack_pack_infinity]
  | zero s => simp [unpack_pack_zero]
  | finite s m e hm =>
    change UnpackedFloat.unpack .binary64 (UnpackedFloat.pack .binary64 (.finite s m e hm)) ≠ _
    rw [UnpackedFloat.pack]
    simp only
    split
    · exact (unpack_pack_infinity s).trans_ne (by simp)
    · next hexponent =>
      split
      · apply unpack_ne_notANumber
        rw [unpackExponent_packComponents]
        intro heq
        have htoNat := congrArg BitVec.toNat heq
        rw [BitVec.toNat_ofNat, Nat.mod_eq_of_lt (by omega)] at htoNat
        change _ = 2047 at htoNat
        omega
      · apply unpack_ne_notANumber
        rw [unpackExponent_packComponents]
        decide

theorem compare_self {u : UnpackedFloat} (h : u ≠ .notANumber) : u.compare u = some .eq := by
  rw [← beq_iff_eq]
  exact (beq_iff_ne_notANumber_and_eq u u).mpr ⟨h, h, Or.inl rfl⟩

theorem isNaN_iff : Scalar.isNaN x = true ↔ unpacked x = .notANumber := by
  rw [Scalar.isNaN, Bool.not_eq_true', ← Bool.not_eq_true, beq_iff]
  by_cases h : unpacked x = .notANumber
  · simp [h, UnpackedFloat.compare]
  · simp [h, compare_self h]

theorem isFinite_iff : Scalar.isFinite x = true ↔ (unpacked x).isFinite = true := by
  rw [Scalar.isFinite, beq_iff, unpacked_sub]
  change (Float.Model.pack _).unpack.compare (.zero .positive) = _ ↔ _
  cases unpacked x with
  | notANumber => decide
  | infinity s => cases s <;> decide
  | zero s => cases s <;> decide
  | finite s m e hm =>
    have hsub : UnpackedFloat.sub .binary64 (.finite s m e hm) (.finite s m e hm) =
        .zero .positive := by
      simp only [UnpackedFloat.sub, Int.sub_self, UnpackedFloat.normalize]
      rfl
    rw [hsub, unpack_pack_zero]
    exact iff_of_true rfl rfl

theorem isInfinite_iff : Scalar.isInfinite x = true ↔ ∃ s, unpacked x = .infinity s := by
  rw [Scalar.isInfinite, Bool.and_eq_true, beq_iff, Bool.not_eq_true', ← Bool.not_eq_true,
    isFinite_iff]
  cases h : unpacked x with
  | notANumber => simp [UnpackedFloat.compare]
  | infinity s => simp [compare_self, UnpackedFloat.isFinite]
  | zero s => simp [UnpackedFloat.isFinite]
  | finite s m e hm => simp [UnpackedFloat.isFinite]

theorem unpacked_abs_notANumber (h : unpacked x = .notANumber) :
    unpacked (Scalar.abs x) = .notANumber := by
  rw [Scalar.abs]
  split
  · rw [unpacked_neg, h]
    rfl
  · exact h

theorem unpacked_abs_ne_notANumber (h : unpacked x ≠ .notANumber) :
    unpacked (Scalar.abs x) ≠ .notANumber := by
  rw [Scalar.abs]
  split
  · rw [unpacked_neg]
    apply unpack_pack_ne_notANumber
    cases hx : unpacked x with
    | notANumber => exact absurd hx h
    | infinity s => simp [UnpackedFloat.neg]
    | zero s => simp [UnpackedFloat.neg]
    | finite s m e hm => simp [UnpackedFloat.neg]
  · exact h

theorem unpacked_abs_infinity (h : unpacked x = .infinity s) :
    unpacked (Scalar.abs x) = .infinity .positive := by
  rw [Scalar.abs]
  split
  · next hlt =>
    rw [lt_iff, h] at hlt
    cases s with
    | negative =>
      rw [unpacked_neg, h]
      rfl
    | positive => exact absurd hlt (by decide)
  · next hlt =>
    rw [lt_iff, h] at hlt
    cases s with
    | negative => exact absurd rfl hlt
    | positive => exact h

theorem compare_infinity_ne_lt (u : UnpackedFloat) :
    (UnpackedFloat.infinity .positive).compare u ≠ some .lt := by
  cases u with
  | notANumber => simp [UnpackedFloat.compare]
  | infinity s => cases s <;> decide
  | zero s => simp [UnpackedFloat.compare]
  | finite s m e hm => simp [UnpackedFloat.compare]

theorem compare_infinity_eq_lt {u : UnpackedFloat} (h : u ≠ .notANumber)
    (hinf : u ≠ .infinity .positive) : u.compare (.infinity .positive) = some .lt := by
  cases u with
  | notANumber => exact absurd rfl h
  | infinity s =>
    cases s with
    | negative => rfl
    | positive => exact absurd rfl hinf
  | zero s => rfl
  | finite s m e hm => rfl

/-- The larger of two magnitudes is infinite if one of them is and both are numbers. -/
theorem unpacked_max_infinity (hx : unpacked x ≠ .notANumber)
    (h : unpacked x = .infinity .positive ∨ unpacked y = .infinity .positive) :
    unpacked (Scalar.max x y) = .infinity .positive := by
  have hnan : ¬ Scalar.isNaN x = true := by rwa [isNaN_iff]
  rw [Scalar.max, if_neg hnan]
  split
  · next hlt =>
    rw [lt_iff] at hlt
    rcases h with h | h
    · rw [h] at hlt
      exact absurd hlt (compare_infinity_ne_lt _)
    · exact h
  · next hlt =>
    rw [lt_iff] at hlt
    rcases h with h | h
    · exact h
    · rw [h] at hlt
      by_contra hinf
      exact hlt (compare_infinity_eq_lt hx hinf)

/-- A finite tolerance times an infinity: infinite, unless the tolerance is zero. -/
theorem unpacked_mul_infinity (hfinite : Scalar.isFinite x = true) (hx : 0 ≤ x)
    (hy : unpacked y = .infinity .positive) :
    unpacked (x * y) = if 0 < x then .infinity .positive else .notANumber := by
  rw [isFinite_iff] at hfinite
  rw [le_iff] at hx
  rw [unpacked_mul, hy]
  simp only [lt_iff]
  change Option.any (fun o => o.isLE) ((UnpackedFloat.zero .positive).compare (unpacked x)) = true
    at hx
  change _ = if (UnpackedFloat.zero .positive).compare (unpacked x) = some .lt then _ else _
  cases hu : unpacked x with
  | notANumber => simp [hu, UnpackedFloat.isFinite] at hfinite
  | infinity s => simp [hu, UnpackedFloat.isFinite] at hfinite
  | zero s =>
    rw [if_neg (by simp [UnpackedFloat.compare])]
    exact unpack_pack_notANumber
  | finite s m e hm =>
    cases s with
    | negative =>
      rw [hu] at hx
      cases hx
    | positive =>
      exact (unpack_pack_infinity .positive).trans (if_pos rfl).symm

/-- The difference of different numbers, one of them infinite. -/
theorem unpacked_sub_infinity (hx : unpacked x ≠ .notANumber) (hy : unpacked y ≠ .notANumber)
    (h : (∃ s, unpacked x = .infinity s) ∨ ∃ s, unpacked y = .infinity s)
    (hne : unpacked x ≠ unpacked y) : ∃ s, unpacked (x - y) = .infinity s := by
  rw [unpacked_sub]
  cases hu : unpacked x with
  | notANumber => exact absurd hu hx
  | infinity s =>
    use s
    cases hv : unpacked y with
    | notANumber => exact absurd hv hy
    | infinity t =>
      cases s <;> cases t <;> first | rfl | exact absurd (hu.trans hv.symm) hne
    | zero t => exact unpack_pack_infinity s
    | finite t m e hm => exact unpack_pack_infinity s
  | zero s =>
    rcases h with ⟨t, ht⟩ | ⟨t, ht⟩
    · rw [hu] at ht
      cases ht
    · rw [ht]
      exact ⟨-t, unpack_pack_infinity _⟩
  | finite s m e hm =>
    rcases h with ⟨t, ht⟩ | ⟨t, ht⟩
    · rw [hu] at ht
      cases ht
    · rw [ht]
      exact ⟨-t, unpack_pack_infinity _⟩

/-- An operation that gives nothing that is a number for an operand that is none. -/
theorem unpack_pack_of_notANumber {op : UnpackedFloat → UnpackedFloat → UnpackedFloat}
    (hleft : ∀ v, op .notANumber v = .notANumber) (hright : ∀ u, op u .notANumber = .notANumber)
    (h : unpacked x = .notANumber ∨ unpacked y = .notANumber) :
    (Float.Model.pack (op (unpacked x) (unpacked y))).unpack = .notANumber := by
  rcases h with h | h
  · rw [h, hleft, unpack_pack_notANumber]
  · rw [h, hright, unpack_pack_notANumber]

theorem unpacked_sub_notANumber (h : unpacked x = .notANumber ∨ unpacked y = .notANumber) :
    unpacked (x - y) = .notANumber :=
  unpack_pack_of_notANumber (fun v => by cases v <;> rfl) (fun u => by cases u <;> rfl) h

/-- What is not a number can not be compared. -/
theorem compare_of_isNaN (h : Scalar.isNaN x = true ∨ Scalar.isNaN y = true) :
    (unpacked x).compare (unpacked y) = none := by
  rw [isNaN_iff, isNaN_iff] at h
  rcases h with h | h
  · rw [h]
    rfl
  · rw [h]
    cases unpacked x <;> rfl

/-! ## Operands that are handed through -/

/-- Packing undoes unpacking: a double has one word, and so has what is not a number. -/
theorem pack_unpack (x : Float.Model) : Float.Model.pack x.unpack = x := by
  obtain ⟨bits, hvalid⟩ := x
  have hword : UnpackedFloat.pack .binary64 (UnpackedFloat.unpack .binary64 bits.toBitVec) =
      bits.toBitVec := pack_unpack_of_valid hvalid
  simp only [Float.Model.pack, Float.Model.unpack, hword]

/-- Minus zero is neutral on the left, zeros of either sign included. -/
theorem neg_zero_add (x : Float) : -0 + x = x := by
  have hsum : UnpackedFloat.add .binary64 (.zero .negative) (unpacked x) = unpacked x := by
    cases unpacked x with
    | notANumber => rfl
    | infinity s => rfl
    | zero s => cases s <;> rfl
    | finite s m e hm => rfl
  change Float.ofModel (Float.Model.pack
    (UnpackedFloat.add .binary64 (.zero .negative) (unpacked x))) = x
  rw [hsum, unpacked, pack_unpack]

/-- Zero is neutral on the right of a difference, zeros of either sign included. -/
protected theorem sub_zero (x : Float) : x - 0 = x := by
  have hdifference : UnpackedFloat.sub .binary64 (unpacked x) (.zero .positive) = unpacked x := by
    cases unpacked x with
    | notANumber => rfl
    | infinity s => rfl
    | zero s => cases s <;> rfl
    | finite s m e hm => rfl
  change Float.ofModel (Float.Model.pack
    (UnpackedFloat.sub .binary64 (unpacked x) (.zero .positive))) = x
  rw [hdifference, unpacked, pack_unpack]

theorem mul_comm (x y : Float) : x * y = y * x := by
  have hsign : ∀ s t : Sign, s * t = t * s := by
    intro s t
    cases s <;> cases t <;> rfl
  have hmul : ∀ u v, UnpackedFloat.mul .binary64 u v = UnpackedFloat.mul .binary64 v u := by
    intro u v
    cases u <;> cases v <;> simp only [UnpackedFloat.mul, hsign, Nat.mul_comm, Int.add_comm]
  exact congrArg (fun u => Float.ofModel (Float.Model.pack u)) (hmul (unpacked x) (unpacked y))

theorem toNat_implicitBit (m : BitVec 52) : (1#1 ++ m).toNat = 2 ^ 52 + m.toNat := by
  rw [BitVec.toNat_append, BitVec.toNat_ofNat, Nat.shiftLeft_eq,
    ← Nat.two_pow_add_eq_or_of_lt m.isLt 1]
  norm_num

theorem targetExponent_eq (e : ℤ) :
    Format.binary64.targetExponent e = max (e - 53) (-1074) := rfl

/-- The exponent of a finite double is the one that rounding aims at. -/
theorem targetExponent_unpack {b : BitVec Format.binary64.numBits} {s : Sign} {m : ℕ} {e : ℤ}
    {hm : 0 < m} (h : UnpackedFloat.unpack .binary64 b = .finite s m e hm) :
    Format.binary64.targetExponent (totalExponent m e) = e := by
  have hmantissa : (unpackMantissa b).toNat < 2 ^ 52 := (unpackMantissa b).isLt
  rw [UnpackedFloat.unpack] at h
  simp only at h
  split at h
  · split at h <;> cases h
  · rw [targetExponent_eq, totalExponent]
    split at h
    · next hexponent =>
      split at h
      · cases h
      · cases h
        have hlog := (Nat.log2_lt hm.ne').mpr hmantissa
        rw [hexponent]
        change max (((unpackMantissa b).toNat.log2 : ℤ) + 1 + (-1074) - 53) (-1074) = -1074
        omega
    · next hexponent =>
      cases h
      have hlog : (1#1 ++ unpackMantissa b).toNat.log2 = 52 := by
        rw [toNat_implicitBit, Nat.log2_eq_iff (by omega)]
        omega
      have hpos : 0 < (unpackExponent b).toNat := by
        rw [Nat.pos_iff_ne_zero]
        exact fun hzero => hexponent (BitVec.eq_of_toNat_eq hzero)
      rw [hlog]
      change max ((52 : ℤ) + 1 + ((unpackExponent b).toNat - 1075) - 53) (-1074) =
        (unpackExponent b).toNat - 1075
      omega

/-- Trailing zeros of a mantissa are shifted out without a trace. -/
theorem shiftRight_mul_two_pow (m k : ℕ) :
    (ExtendedMantissa.ofMantissaAndAccuracy (m * 2 ^ k) .exact) >>> k = ⟨m, false, false⟩ := by
  change k.repeat ExtendedMantissa.shiftRightOne ⟨m * 2 ^ k, false, false⟩ = _
  induction k generalizing m with
  | zero =>
    rw [Nat.pow_zero, Nat.mul_one]
    rfl
  | succ k ih =>
    rw [Nat.pow_succ', ← Nat.mul_assoc, Nat.repeat, ih]
    simp [ExtendedMantissa.shiftRightOne]

theorem totalExponent_mul_two_pow {m : ℕ} (hm : 0 < m) (k : ℕ) (e : ℤ) :
    totalExponent (m * 2 ^ k) (e - k) = totalExponent m e := by
  have hlog : (m * 2 ^ k).log2 = m.log2 + k := by
    induction k with
    | zero => rw [Nat.pow_zero, Nat.mul_one, Nat.add_zero]
    | succ k ih =>
      rw [Nat.pow_succ', Nat.mul_left_comm, Nat.log2_two_mul (by positivity), ih, Nat.add_assoc]
  rw [totalExponent, totalExponent, hlog]
  omega

/-- A mantissa that has the right number of bits but for trailing zeros. -/
theorem shiftToTargetExponent_mul_two_pow {m : ℕ} {e : ℤ} (hm : 0 < m)
    (h : Format.binary64.targetExponent (totalExponent m e) = e) (k : ℕ) :
    shiftToTargetExponent .binary64 (m * 2 ^ k) (e - k) .exact = (⟨m, false, false⟩, e) := by
  have hk : (e - (e - k)).toNat = k := by omega
  rw [shiftToTargetExponent, totalExponent_mul_two_pow hm, h, shiftToExponent, hk]
  simp only [shiftRight_mul_two_pow, sub_add_cancel]

/-- Such a mantissa loses its zeros and is not rounded. -/
theorem roundWithAccuracy_mul_two_pow {s : Sign} {m : ℕ} {e : ℤ} (hm : 0 < m)
    (h : Format.binary64.targetExponent (totalExponent m e) = e) (k : ℕ) :
    roundWithAccuracy .binary64 s (m * 2 ^ k) (e - k) .exact = .finite s m e hm := by
  have hzero := shiftToTargetExponent_mul_two_pow hm h 0
  rw [Nat.pow_zero, Nat.mul_one, Nat.cast_zero, sub_zero] at hzero
  rw [roundWithAccuracy, shiftToTargetExponent_mul_two_pow hm h k]
  simp only [ExtendedMantissa.roundedMantissa, ExtendedMantissa.accuracy,
    Accuracy.roundToNearestEven, hzero, hm.ne', dif_neg, not_false_eq_true]

/-- One is neutral on the right. -/
theorem mul_one (x : Float) : x * 1 = x := by
  have hone : unpacked 1 = .finite .positive (2 ^ 52) (-52) (by norm_num) := rfl
  have hmul : UnpackedFloat.mul .binary64 (unpacked x) (unpacked 1) = unpacked x := by
    rw [hone]
    cases h : unpacked x with
    | notANumber => rfl
    | infinity s => cases s <;> rfl
    | zero s => cases s <;> rfl
    | finite s m e hm =>
      have hsign : s * .positive = s := by cases s <;> rfl
      rw [UnpackedFloat.mul, hsign]
      exact roundWithAccuracy_mul_two_pow hm (targetExponent_unpack h) 52
  change Float.ofModel (Float.Model.pack
    (UnpackedFloat.mul .binary64 (unpacked x) (unpacked 1))) = x
  rw [hmul, unpacked, pack_unpack]

/-! ## Zeros of either sign -/

/-- Zero, with either sign. -/
def IsZero (x : Float) : Prop := ∃ s, unpacked x = .zero s

/-- The same number, zeros of either sign being one number, or both not a number. -/
def Like (x y : Float) : Prop :=
  (x == y) = true ∨ (Scalar.isNaN x = true ∧ Scalar.isNaN y = true)

theorem unpacked_add (x y : Float) :
    unpacked (x + y) = (Float.Model.pack (add .binary64 (unpacked x) (unpacked y))).unpack := rfl

theorem unpacked_inj : unpacked x = unpacked y ↔ x = y := by
  constructor
  · intro h
    have hmodel := congrArg Float.Model.pack h
    rw [unpacked, unpacked, pack_unpack, pack_unpack] at hmodel
    exact congrArg Float.ofModel hmodel
  · rintro rfl
    rfl

/-- There is one double that is not a number. -/
theorem eq_of_isNaN (hx : Scalar.isNaN x = true) (hy : Scalar.isNaN y = true) : x = y := by
  rw [isNaN_iff] at hx hy
  exact unpacked_inj.mp (hx.trans hy.symm)

theorem beq_iff_eq_or_isZero :
    (x == y) = true ↔ Scalar.isNaN x = false ∧ (x = y ∨ (IsZero x ∧ IsZero y)) := by
  rw [← Bool.not_eq_true, isNaN_iff, ← unpacked_inj]
  change (unpacked x).beq (unpacked y) = true ↔ _
  rw [beq_iff_ne_notANumber_and_eq, IsZero, IsZero]
  constructor
  · rintro ⟨hx, -, h | ⟨h, h'⟩ | ⟨h, h'⟩⟩
    · exact ⟨hx, .inl h⟩
    · exact ⟨hx, .inr ⟨⟨_, h⟩, ⟨_, h'⟩⟩⟩
    · exact ⟨hx, .inr ⟨⟨_, h⟩, ⟨_, h'⟩⟩⟩
  · rintro ⟨hx, h | ⟨⟨s, hs⟩, ⟨t, ht⟩⟩⟩
    · exact ⟨hx, h ▸ hx, .inl h⟩
    · rw [hs, ht]
      cases s <;> cases t <;> simp

theorem IsZero.isFinite (h : IsZero x) : Scalar.isFinite x = true := by
  obtain ⟨s, hs⟩ := h
  rw [isFinite_iff, hs]
  rfl

theorem isNaN_of_isFinite (h : Scalar.isFinite x = true) : Scalar.isNaN x = false := by
  rw [← Bool.not_eq_true, isNaN_iff]
  intro hnan
  rw [isFinite_iff, hnan] at h
  cases h

theorem like_iff : Like x y ↔ x = y ∨ (IsZero x ∧ IsZero y) := by
  rw [Like, beq_iff_eq_or_isZero]
  constructor
  · rintro (⟨-, h⟩ | ⟨hx, hy⟩)
    · exact h
    · exact .inl (eq_of_isNaN hx hy)
  · rintro (rfl | ⟨hx, hy⟩)
    · cases hnan : Scalar.isNaN x with
      | false => exact .inl ⟨rfl, .inl rfl⟩
      | true => exact .inr ⟨rfl, rfl⟩
    · exact .inl ⟨isNaN_of_isFinite hx.isFinite, .inr ⟨hx, hy⟩⟩

theorem Like.refl (x : Float) : Like x x := like_iff.mpr (.inl rfl)

theorem Like.trans {z : Float} (hxy : Like x y) (hyz : Like y z) : Like x z := by
  rw [like_iff] at hxy hyz ⊢
  rcases hxy with rfl | ⟨hx, hy⟩
  · exact hyz
  · rcases hyz with rfl | ⟨-, hz⟩
    · exact .inr ⟨hx, hy⟩
    · exact .inr ⟨hx, hz⟩

theorem Like.isFinite_eq (h : Like x y) : Scalar.isFinite x = Scalar.isFinite y := by
  rw [like_iff] at h
  rcases h with rfl | ⟨hx, hy⟩
  · rfl
  · rw [hx.isFinite, hy.isFinite]

theorem Like.isNaN_eq (h : Like x y) : Scalar.isNaN x = Scalar.isNaN y := by
  rw [like_iff] at h
  rcases h with rfl | ⟨hx, hy⟩
  · rfl
  · rw [isNaN_of_isFinite hx.isFinite, isNaN_of_isFinite hy.isFinite]

theorem isZero_of_beq (h : (x == 0) = true) : IsZero x := by
  rcases (beq_iff_eq_or_isZero.mp h).2 with rfl | ⟨hx, -⟩
  · exact ⟨.positive, rfl⟩
  · exact hx

/-- A zero of either sign is numerically zero. -/
theorem IsZero.beq_zero (h : IsZero x) : (x == 0) = true :=
  beq_iff_eq_or_isZero.mpr ⟨isNaN_of_isFinite h.isFinite, .inr ⟨h, .positive, rfl⟩⟩

theorem eq_one_of_beq (h : (x == 1) = true) : x = 1 := by
  rcases (beq_iff_eq_or_isZero.mp h).2 with h | ⟨-, s, hs⟩
  · exact h
  · cases hs

theorem IsZero.add (hx : IsZero x) (hy : IsZero y) : IsZero (x + y) := by
  obtain ⟨s, hs⟩ := hx
  obtain ⟨t, ht⟩ := hy
  rw [IsZero, unpacked_add, hs, ht, UnpackedFloat.add]
  split
  · exact ⟨_, unpack_pack_zero _⟩
  · exact ⟨_, unpack_pack_zero _⟩

theorem add_comm (x y : Float) : x + y = y + x := by
  have hadd : ∀ u v, UnpackedFloat.add .binary64 u v = UnpackedFloat.add .binary64 v u := by
    intro u v
    cases u with
    | notANumber => cases v <;> rfl
    | infinity s =>
      cases v with
      | infinity t => cases s <;> cases t <;> rfl
      | _ => rfl
    | zero s =>
      cases v with
      | zero t => cases s <;> cases t <;> rfl
      | _ => rfl
    | finite s m e hm =>
      cases v with
      | finite t k d hk => simp only [UnpackedFloat.add, Int.min_comm e d, Int.add_comm]
      | _ => rfl
  exact congrArg (fun u => Float.ofModel (Float.Model.pack u)) (hadd (unpacked x) (unpacked y))

/-- Adding a zero changes at most the sign of a zero. -/
theorem add_like (hy : IsZero y) : Like (x + y) x := by
  rw [like_iff]
  by_cases hx : IsZero x
  · exact .inr ⟨hx.add hy, hx⟩
  · left
    obtain ⟨t, ht⟩ := hy
    have hsum : UnpackedFloat.add .binary64 (unpacked x) (unpacked y) = unpacked x := by
      rw [ht]
      cases h : unpacked x with
      | notANumber => rfl
      | infinity s => rfl
      | zero s => exact absurd ⟨s, h⟩ hx
      | finite s m e hm => rfl
    change Float.ofModel (Float.Model.pack
      (UnpackedFloat.add .binary64 (unpacked x) (unpacked y))) = x
    rw [hsum, unpacked, pack_unpack]

theorem isNaN_add (h : Scalar.isNaN x = true ∨ Scalar.isNaN y = true) :
    Scalar.isNaN (x + y) = true := by
  rw [isNaN_iff, isNaN_iff] at h
  rw [isNaN_iff, unpacked_add]
  exact unpack_pack_of_notANumber (fun v => by cases v <;> rfl) (fun u => by cases u <;> rfl) h

theorem isNaN_sub (h : Scalar.isNaN x = true ∨ Scalar.isNaN y = true) :
    Scalar.isNaN (x - y) = true := by
  rw [isNaN_iff, isNaN_iff] at h
  exact isNaN_iff.mpr (unpacked_sub_notANumber h)

theorem isNaN_mul (h : Scalar.isNaN x = true ∨ Scalar.isNaN y = true) :
    Scalar.isNaN (x * y) = true := by
  rw [isNaN_iff, isNaN_iff] at h
  rw [isNaN_iff, unpacked_mul]
  exact unpack_pack_of_notANumber (fun v => by cases v <;> rfl) (fun u => by cases u <;> rfl) h

theorem isNaN_div (h : Scalar.isNaN x = true ∨ Scalar.isNaN y = true) :
    Scalar.isNaN (x / y) = true := by
  rw [isNaN_iff, isNaN_iff] at h
  rw [isNaN_iff, unpacked_div]
  exact unpack_pack_of_notANumber (fun v => by cases v <;> rfl) (fun u => by cases u <;> rfl) h

theorem IsZero.mul (hx : IsZero x) (hy : Scalar.isFinite y = true) : IsZero (x * y) := by
  obtain ⟨s, hs⟩ := hx
  rw [isFinite_iff] at hy
  rw [IsZero, unpacked_mul, hs]
  cases h : unpacked y with
  | notANumber => simp [h, UnpackedFloat.isFinite] at hy
  | infinity t => simp [h, UnpackedFloat.isFinite] at hy
  | zero t => exact ⟨_, unpack_pack_zero _⟩
  | finite t m e hm => exact ⟨_, unpack_pack_zero _⟩

/-- Zero times what is not finite is not a number. -/
theorem IsZero.isNaN_mul (hx : IsZero x) (hy : ¬ Scalar.isFinite y = true) :
    Scalar.isNaN (x * y) = true := by
  obtain ⟨s, hs⟩ := hx
  rw [isFinite_iff] at hy
  rw [isNaN_iff, unpacked_mul, hs]
  cases h : unpacked y with
  | notANumber => exact unpack_pack_notANumber
  | infinity t => exact unpack_pack_notANumber
  | zero t => simp [h, UnpackedFloat.isFinite] at hy
  | finite t m e hm => simp [h, UnpackedFloat.isFinite] at hy

theorem IsZero.sub (hx : IsZero x) (hy : IsZero y) : IsZero (x - y) := by
  obtain ⟨s, hs⟩ := hx
  obtain ⟨t, ht⟩ := hy
  rw [IsZero, unpacked_sub, hs, ht]
  cases s <;> cases t <;> exact ⟨_, rfl⟩

theorem IsZero.one_sub (h : IsZero x) : 1 - x = 1 := by
  obtain ⟨s, hs⟩ := h
  rw [← unpacked_inj, unpacked_sub, hs]
  cases s <;> rfl

theorem IsZero.one_add (h : IsZero x) : 1 + x = 1 := by
  obtain ⟨s, hs⟩ := h
  rw [← unpacked_inj, unpacked_add, hs]
  cases s <;> rfl

theorem isZero_sub_self (h : Scalar.isFinite x = true) : IsZero (x - x) := isZero_of_beq h

/-! ## Sums -/

section Sums

variable {f : ℕ → Float} {n i : ℕ}

theorem sum_range_succ (f : ℕ → Float) (n : ℕ) :
    Scalar.sum ((List.range (n + 1)).map f) = Scalar.sum ((List.range n).map f) + f n := by
  rw [List.range_succ, List.map_append, Scalar.sum, List.foldl_append]
  rfl

theorem isZero_sum (h : ∀ k < n, IsZero (f k)) : IsZero (Scalar.sum ((List.range n).map f)) := by
  induction n with
  | zero =>
    rw [List.range_zero, List.map_nil, Scalar.sum, List.foldl_nil]
    exact ⟨.negative, rfl⟩
  | succ n ih =>
    rw [sum_range_succ]
    exact (ih fun k hk => h k (by omega)).add (h n (by omega))

/-- A sum of zeros and one more term is that term. -/
theorem sum_like (hi : i < n) (h : ∀ k < n, k ≠ i → IsZero (f k)) :
    Like (Scalar.sum ((List.range n).map f)) (f i) := by
  induction n with
  | zero => omega
  | succ n ih =>
    rw [sum_range_succ]
    by_cases hlast : i = n
    · subst hlast
      rw [add_comm]
      exact add_like (isZero_sum fun k hk => h k (by omega) (by omega))
    · exact (add_like (h n (by omega) (by omega))).trans
        (ih (by omega) fun k hk => h k (by omega))

theorem isNaN_sum (hi : i < n) (h : Scalar.isNaN (f i) = true) :
    Scalar.isNaN (Scalar.sum ((List.range n).map f)) = true := by
  induction n with
  | zero => omega
  | succ n ih =>
    rw [sum_range_succ]
    apply isNaN_add
    by_cases hlast : i = n
    · exact .inr (hlast ▸ h)
    · exact .inl (ih (by omega))

end Sums

end Georeferencing.Double
