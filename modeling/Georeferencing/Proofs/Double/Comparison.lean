import Georeferencing.Proofs.Double.Value
import Georeferencing.Proofs.Matrix.Tolerance

/-! # Comparing two doubles

Equality within a tolerance is symmetric, infinities and values that are not numbers included. If
nothing is tolerated, it accepts only what is alike: the difference of two doubles vanishes only if
they are equal, since rounding sends no other real number to zero. A larger tolerance accepts more:
rounding is monotone, so a larger factor gives a product that is not smaller.
-/

namespace Georeferencing

namespace Double

open Float.Model Float.Model.UnpackedFloat

variable {a b c m epsilon epsilon' : Float} {p q : EReal} {x y : ℝ} {relative : Bool}

/-! ## Differences and tolerances -/

theorem isFinite_of_not (hinfinite : ¬ Scalar.isInfinite a = true)
    (hnan : ¬ Scalar.isNaN a = true) : Scalar.isFinite a = true :=
  (isFinite_or_isInfinite_or_isNaN a).resolve_right (not_or.mpr ⟨hinfinite, hnan⟩)

/-- What is smaller in size than something else is finite. -/
theorem isFinite_of_abs_lt (h : Scalar.abs a < b) : Scalar.isFinite a = true := by
  rw [lt_iff] at h
  apply isFinite_of_not
  · intro hinfinite
    obtain ⟨s, hs⟩ := isInfinite_iff.mp hinfinite
    rw [unpacked_abs_infinity hs] at h
    exact compare_infinity_ne_lt _ h
  · intro hnan
    rw [unpacked_abs_notANumber (isNaN_iff.mp hnan)] at h
    cases h

/-- What is not a number is not larger in size than anything. -/
theorem not_lt_abs_of_isNaN (h : Scalar.isNaN a = true) : ¬ b < Scalar.abs a := by
  rw [lt_iff, compare_of_isNaN (.inr (isNaN_iff.mpr (unpacked_abs_notANumber (isNaN_iff.mp h))))]
  exact Option.some_ne_none _ ∘ Eq.symm

/-- A zero is not larger in size than what is not negative. -/
theorem not_lt_abs_of_isZero (h : IsZero a) (hb : 0 ≤ b) : ¬ b < Scalar.abs a := by
  obtain ⟨_, q, hzero, hq, hle⟩ := le_iff_exists_value.mp hb
  cases hzero
  have habs : value (Scalar.abs a) = some (size 0) := by
    rw [value_abs, h.value_eq, Option.map_some]
  rw [lt_iff_value hq habs, not_lt]
  exact (size_le_zero_iff.mpr rfl).trans hle

/-- The order in a difference does not matter for its size, be it infinite or not a number. -/
theorem value_abs_sub_comm (a b : Float) :
    value (Scalar.abs (a - b)) = value (Scalar.abs (b - a)) := by
  by_cases hnan : Scalar.isNaN a = true ∨ Scalar.isNaN b = true
  · rw [value_abs, value_abs, value_eq_none_iff.mpr (isNaN_sub hnan),
      value_eq_none_iff.mpr (isNaN_sub hnan.symm)]
  · by_cases hsame : unpacked a = unpacked b
    · rw [unpacked_inj.mp hsame]
    · by_cases hinfinite : (∃ s, unpacked a = .infinity s) ∨ ∃ s, unpacked b = .infinity s
      · rw [isNaN_iff, isNaN_iff, not_or] at hnan
        obtain ⟨s, hs⟩ := unpacked_sub_infinity hnan.1 hnan.2 hinfinite hsame
        obtain ⟨t, ht⟩ := unpacked_sub_infinity hnan.2 hnan.1 hinfinite.symm (Ne.symm hsame)
        rw [value, value, unpacked_abs_infinity hs, unpacked_abs_infinity ht]
      · rw [← isInfinite_iff, ← isInfinite_iff, not_or] at hinfinite
        rw [not_or] at hnan
        obtain ⟨x, hx⟩ := isFinite_iff_exists_value.mp (isFinite_of_not hinfinite.1 hnan.1)
        obtain ⟨y, hy⟩ := isFinite_iff_exists_value.mp (isFinite_of_not hinfinite.2 hnan.2)
        rw [value_abs, value_abs, value_sub hx hy, value_sub hy hx, Option.map_some,
          Option.map_some, ← neg_sub x y, nearestDouble_neg, size_neg]

theorem Like.mul_left (c : Float) (h : Like a b) : Like (c * a) (c * b) := by
  rcases like_iff.mp h with rfl | ⟨ha, hb⟩
  · exact .refl _
  · rw [mul_comm c a, mul_comm c b]
    by_cases hc : Scalar.isFinite c = true
    · exact like_iff.mpr (.inr ⟨ha.mul hc, hb.mul hc⟩)
    · exact .inr ⟨ha.isNaN_mul hc, hb.isNaN_mul hc⟩

theorem tolerance_relative (epsilon a b : Float) :
    tolerance epsilon true a b = epsilon * Scalar.max (Scalar.abs a) (Scalar.abs b) := if_pos rfl

theorem tolerance_absolute (epsilon a b : Float) : tolerance epsilon false a b = epsilon :=
  if_neg Bool.false_ne_true

theorem value_max_abs (ha : value a = some p) (hb : value b = some q) :
    value (Scalar.max (Scalar.abs a) (Scalar.abs b)) = some (max (size p) (size q)) := by
  apply value_max
  · rw [value_abs, ha, Option.map_some]
  · rw [value_abs, hb, Option.map_some]

theorem value_tolerance_comm (ha : value a = some p) (hb : value b = some q) :
    value (tolerance epsilon relative a b) = value (tolerance epsilon relative b a) := by
  cases relative with
  | false => rw [tolerance_absolute, tolerance_absolute]
  | true =>
    have hmax : Like (Scalar.max (Scalar.abs a) (Scalar.abs b))
        (Scalar.max (Scalar.abs b) (Scalar.abs a)) := by
      rw [like_iff_value, value_max_abs ha hb, value_max_abs hb ha, max_comm]
    rw [tolerance_relative, tolerance_relative]
    exact like_iff_value.mp (hmax.mul_left epsilon)

theorem size_nonneg (p : EReal) : 0 ≤ size p := by
  rcases le_total 0 p with hp | hp
  · exact hp.trans (le_max_left _ _)
  · exact (EReal.neg_nonneg.mpr hp).trans (le_max_right _ _)

/-- A real number times an infinity. -/
theorem value_mul_top (ha : value a = some (x : EReal)) (hb : value b = some ⊤) :
    value (a * b) = if 0 < x then some ⊤ else if x < 0 then some ⊥ else none := by
  rw [value, unpacked_mul, eq_infinity_of_valueOf hb]
  rcases unpacked_of_value ha with ⟨s, hs, rfl⟩ | ⟨s, m, e, hm, hs, -, rfl⟩
  · have hmul : UnpackedFloat.mul .binary64 (.zero s) (.infinity .positive) = .notANumber := rfl
    rw [hs, hmul, unpack_pack_notANumber, if_neg (lt_irrefl 0), if_neg (lt_irrefl 0), valueOf]
  · have hpos := mul_two_zpow_pos hm e
    have hmul : UnpackedFloat.mul .binary64 (.finite s m e hm) (.infinity .positive) =
        .infinity (s * .positive) := rfl
    rw [hs, hmul, unpack_pack_infinity]
    cases s
    · rw [signed, if_neg (by linarith), if_pos (by linarith)]
      rfl
    · rw [signed, if_pos hpos]
      rfl

/-- What is not negative and not larger than a product is not larger than the product with a larger
factor. If the other factor is infinite, both products are. -/
theorem le_mul_mono {r : EReal} (hx : value epsilon = some (x : EReal))
    (hy : value epsilon' = some (y : EReal)) (hxy : x ≤ y) (hm : value m = some r) (hr : 0 ≤ r)
    (hc : 0 ≤ c) (h : c ≤ epsilon * m) : c ≤ epsilon' * m := by
  obtain ⟨_, z, hzero, hz, hz0⟩ := le_iff_exists_value.mp hc
  rw [← Option.some.inj (value_zero.symm.trans hzero)] at hz0
  obtain ⟨_, t, hz', ht, hzt⟩ := le_iff_exists_value.mp h
  cases Option.some.inj (hz.symm.trans hz')
  rw [le_iff_exists_value]
  induction r with
  | bot => exact absurd hr (not_le.mpr EReal.bot_lt_zero)
  | coe r =>
    rw [value_mul hx hm] at ht
    cases Option.some.inj ht
    have hproduct : x * r ≤ y * r := mul_le_mul_of_nonneg_right hxy (EReal.coe_nonneg.mp hr)
    exact ⟨z, _, hz, value_mul hy hm, hzt.trans (nearestDouble_mono hproduct)⟩
  | top =>
    rw [value_mul_top hx hm] at ht
    have hpos : 0 < x := by
      by_contra hneg
      rw [if_neg hneg] at ht
      split at ht
      · cases Option.some.inj ht
        exact not_lt.mpr (hz0.trans hzt) EReal.bot_lt_zero
      · cases ht
    refine ⟨z, ⊤, hz, ?_, le_top⟩
    rw [value_mul_top hy hm, if_pos (hpos.trans_le hxy)]

/-- A larger factor gives a larger tolerance. -/
theorem le_tolerance_mono (hfinite : Scalar.isFinite epsilon = true)
    (hfinite' : Scalar.isFinite epsilon' = true) (hle : epsilon ≤ epsilon')
    (ha : value a = some p) (hb : value b = some q) (hc : 0 ≤ c)
    (h : c ≤ tolerance epsilon relative a b) : c ≤ tolerance epsilon' relative a b := by
  obtain ⟨x, hx⟩ := isFinite_iff_exists_value.mp hfinite
  obtain ⟨y, hy⟩ := isFinite_iff_exists_value.mp hfinite'
  cases relative with
  | false =>
    rw [tolerance_absolute] at h ⊢
    exact Double.le_trans h hle
  | true =>
    have hxy : x ≤ y := EReal.coe_le_coe_iff.mp ((le_iff_value hx hy).mp hle)
    have hnonneg : 0 ≤ max (size p) (size q) := (size_nonneg p).trans (le_max_left _ _)
    rw [tolerance_relative] at h ⊢
    exact le_mul_mono hx hy hxy (value_max_abs ha hb) hnonneg hc h

/-! ## Two doubles -/

theorem exists_value_of_not_isNaN (h : ¬ (Scalar.isNaN a = true ∨ Scalar.isNaN b = true)) :
    (∃ p, value a = some p) ∧ ∃ q, value b = some q := by
  rw [not_or, Bool.not_eq_true, Bool.not_eq_true] at h
  exact ⟨exists_value h.1, exists_value h.2⟩

theorem sameSpecial_symm (h : Scalar.sameSpecial a b = true) : Scalar.sameSpecial b a = true := by
  rw [sameSpecial_iff] at h ⊢
  rcases h with ⟨ha, hb⟩ | ⟨ha, hab⟩
  · exact .inl ⟨hb, ha⟩
  · have hba : (b == a) = true := by
      rcases beq_iff_eq_or_isZero.mp hab with ⟨hnan, rfl | ⟨ha, hb⟩⟩
      · exact hab
      · exact beq_iff_eq_or_isZero.mpr ⟨isNaN_of_isFinite hb.isFinite, .inr ⟨hb, ha⟩⟩
    rw [isInfinite_iff] at ha ⊢
    exact .inr ⟨infinity_of_beq hba ha, hba⟩

theorem equalWithin_symm (h : Scalar.equalWithin epsilon relative a b = true) :
    Scalar.equalWithin epsilon relative b a = true := by
  by_cases hnan : Scalar.isNaN a = true ∨ Scalar.isNaN b = true
  · rw [equalWithin_iff_of_isNaN hnan] at h
    exact (equalWithin_iff_of_isNaN hnan.symm).mpr h.symm
  · obtain ⟨⟨p, hp⟩, q, hq⟩ := exists_value_of_not_isNaN hnan
    rw [equalWithin_iff_le_or] at h ⊢
    rcases h with h | h
    · left
      rw [le_iff_exists_value] at h ⊢
      rwa [value_abs_sub_comm b a, value_tolerance_comm hq hp]
    · exact .inr (sameSpecial_symm h)

/-- A larger tolerance accepts more. -/
theorem equalWithin_mono (hfinite : Scalar.isFinite epsilon = true)
    (hfinite' : Scalar.isFinite epsilon' = true) (hle : epsilon ≤ epsilon')
    (h : Scalar.equalWithin epsilon relative a b = true) :
    Scalar.equalWithin epsilon' relative a b = true := by
  by_cases hnan : Scalar.isNaN a = true ∨ Scalar.isNaN b = true
  · rwa [equalWithin_iff_of_isNaN hnan] at h ⊢
  · obtain ⟨⟨p, hp⟩, q, hq⟩ := exists_value_of_not_isNaN hnan
    rw [equalWithin_iff_le_or] at h ⊢
    rcases h with h | h
    · left
      have hpos : 0 ≤ Scalar.abs (a - b) := by
        obtain ⟨r, -, hr, -, -⟩ := le_iff_exists_value.mp h
        rw [value_abs, Option.map_eq_some_iff] at hr
        obtain ⟨r', hr', rfl⟩ := hr
        rw [le_iff_exists_value, value_abs, hr']
        exact ⟨0, _, value_zero, rfl, size_nonneg r'⟩
      exact le_tolerance_mono hfinite hfinite' hle hp hq hpos h
    · exact .inr h

theorem isFinite_zero : Scalar.isFinite (0 : Float) = true :=
  isFinite_iff_exists_value.mpr ⟨0, value_zero⟩

theorem zero_le_zero : (0 : Float) ≤ 0 := (le_iff_value value_zero value_zero).mpr le_rfl

theorem abs_sub_le_zero_iff (ha : Scalar.isFinite a = true) (hb : Scalar.isFinite b = true) :
    Scalar.abs (a - b) ≤ 0 ↔ Like a b := by
  obtain ⟨x, hx⟩ := isFinite_iff_exists_value.mp ha
  obtain ⟨y, hy⟩ := isFinite_iff_exists_value.mp hb
  have habs : value (Scalar.abs (a - b)) = some (size (nearestDouble (x - y))) := by
    rw [value_abs, value_sub hx hy, Option.map_some]
  rw [le_iff_value habs value_zero, size_le_zero_iff, nearestDouble_sub_eq_zero_iff hx hy,
    like_iff_value, hx, hy, Option.some_inj, EReal.coe_eq_coe_iff]

/-- No multiple of a zero tolerance is larger. -/
theorem like_tolerance_zero (ha : Scalar.isFinite a = true) (hb : Scalar.isFinite b = true) :
    Like (tolerance 0 relative a b) 0 := by
  cases relative with
  | false =>
    rw [tolerance_absolute]
    exact .refl 0
  | true =>
    obtain ⟨x, hx⟩ := isFinite_iff_exists_value.mp ha
    obtain ⟨y, hy⟩ := isFinite_iff_exists_value.mp hb
    have hmax := value_max_abs hx hy
    rw [size_coe, size_coe, ← EReal.coe_strictMono.monotone.map_max] at hmax
    rw [tolerance_relative, like_iff_value, value_mul value_zero hmax, zero_mul,
      nearestDouble_zero, value_zero]

/-- What is alike is equal, even if nothing is tolerated. -/
theorem equalWithin_of_like (relative : Bool) (h : Like a b) :
    Scalar.equalWithin 0 relative a b = true := by
  rw [equalWithin_iff isFinite_zero zero_le_zero]
  rcases isFinite_or_isInfinite_or_isNaN a with ha | ha | ha
  · have hb : Scalar.isFinite b = true := h.isFinite_eq ▸ ha
    have hzero := (abs_sub_le_zero_iff ha hb).mpr h
    have htolerance : Like (tolerance 0 relative a b) 0 := like_tolerance_zero ha hb
    rw [like_iff_value] at htolerance
    apply EqualWithin.finite ha hb
    rw [le_iff_exists_value] at hzero ⊢
    rwa [htolerance]
  · rcases h with h | ⟨hnan, -⟩
    · exact .infinite ha h
    · obtain ⟨s, hs⟩ := isInfinite_iff.mp ha
      rw [isNaN_iff, hs] at hnan
      cases hnan
  · exact .nan ha (h.isNaN_eq ▸ ha)

/-- If nothing is tolerated, only what is alike is equal. -/
theorem equalWithin_zero_iff : Scalar.equalWithin 0 false a b = true ↔ Like a b := by
  constructor
  · intro h
    rw [equalWithin_iff isFinite_zero zero_le_zero] at h
    cases h with
    | finite ha hb h =>
      rw [tolerance_absolute] at h
      exact (abs_sub_le_zero_iff ha hb).mp h
    | nan ha hb => exact .inr ⟨ha, hb⟩
    | infinite _ h => exact .inl h
    | unbounded hrelative => cases hrelative
  · exact equalWithin_of_like false

theorem same_iff : BitPattern.same a b = true ↔ a = b := by
  rw [BitPattern.same, beq_iff_eq]
  constructor
  · intro h
    have hbits : a.toModel.toBits = b.toModel.toBits := h
    have hmodel : a.toModel = b.toModel := by
      cases hx : a.toModel with
      | mk bits valid =>
        cases hy : b.toModel with
        | mk bits' valid' =>
          rw [hx, hy] at hbits
          cases hbits
          rfl
    exact congrArg Float.ofModel hmodel
  · rintro rfl
    rfl

end Double

end Georeferencing
