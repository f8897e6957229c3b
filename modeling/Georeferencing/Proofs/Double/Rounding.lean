import Mathlib

/-! # Rounding real numbers to doubles

The double nearest to a real number, as a real function: the number is a multiple of a power of two
that depends on its size, with a multiplier of 53 bits, and of two such numbers equally near the one
with the even multiplier is taken. Beyond the largest double are the infinities, so that the
result, like the number that an unpacked double stands for, is an extended real one. The function is
monotone and odd, and vanishes on no number that is at least as large as the smallest double.
-/

namespace Georeferencing.Double

open Float.Model Float.Model.UnpackedFloat

/-! ## The nearest integer -/

/-- An integer nearest to a number, the even one if there are two. -/
structure IsNearest (x : ℝ) (n : ℤ) : Prop where
  close : |x - n| ≤ 1 / 2
  even : |x - n| = 1 / 2 → Even n

variable {x y : ℝ} {n k : ℤ}

/-- If the order were reversed, both numbers would lie halfway between two neighbours, of which only
one is even. -/
theorem IsNearest.mono (hx : IsNearest x n) (hy : IsNearest y k) (h : x ≤ y) : n ≤ k := by
  by_contra hlt
  have hstep : k + 1 ≤ n := by omega
  have hstep' : (k : ℝ) + 1 ≤ n := by exact_mod_cast hstep
  have hlow := (abs_le.mp hx.close).1
  have hhigh := (abs_le.mp hy.close).2
  have hn : n = k + 1 := by
    have hle : (n : ℝ) ≤ k + 1 := by linarith
    have hle' : n ≤ k + 1 := by exact_mod_cast hle
    omega
  have hcast : (n : ℝ) = k + 1 := by exact_mod_cast hn
  have hxhalf : x - n = -(1 / 2) := by linarith
  have hyhalf : y - k = 1 / 2 := by linarith
  have hneven : Even n := hx.even (by rw [hxhalf, abs_neg]; norm_num)
  have hkeven : Even k := hy.even (by rw [hyhalf]; norm_num)
  rw [hn, Int.even_add_one] at hneven
  exact hneven hkeven

theorem IsNearest.unique (h : IsNearest x n) (h' : IsNearest x k) : n = k :=
  le_antisymm (h.mono h' le_rfl) (h'.mono h le_rfl)

theorem IsNearest.neg (h : IsNearest x n) : IsNearest (-x) (-n) := by
  have hdistance : |-x - ((-n : ℤ) : ℝ)| = |x - n| := by
    rw [← abs_neg]
    congr 1
    push_cast
    ring
  constructor
  · rw [hdistance]
    exact h.close
  · intro hhalf
    rw [hdistance] at hhalf
    exact (h.even hhalf).neg

theorem isNearest_intCast (n : ℤ) : IsNearest n n := by
  constructor
  · simp
  · intro h
    norm_num at h

/-- The integer nearest to a quotient, found without a division. -/
theorem isNearest_of_mul {m q p : ℕ} (hp : 0 < p) (hx : x * p = m) (hlow : 2 * (q * p) ≤ 2 * m + p)
    (hhigh : 2 * m ≤ 2 * (q * p) + p)
    (heven : 2 * (q * p) = 2 * m + p ∨ 2 * m = 2 * (q * p) + p → Even q) :
    IsNearest x q := by
  have hp' : (0 : ℝ) < p := by exact_mod_cast hp
  have hlow' : 2 * ((q : ℝ) * p) ≤ 2 * m + p := by exact_mod_cast hlow
  have hhigh' : 2 * (m : ℝ) ≤ 2 * (q * p) + p := by exact_mod_cast hhigh
  have hdiff : x - (q : ℤ) = (m - q * p) / p := by
    rw [← hx, ← sub_mul, mul_div_cancel_right₀ _ hp'.ne', Int.cast_natCast]
  constructor
  · rw [hdiff, abs_div, abs_of_pos hp', div_le_iff₀ hp', abs_le]
    constructor <;> linarith
  · intro hhalf
    rw [hdiff, abs_div, abs_of_pos hp', div_eq_iff hp'.ne'] at hhalf
    rw [Int.even_coe_nat]
    apply heven
    rcases abs_choice ((m : ℝ) - q * p) with habs | habs
    · right
      have htie : 2 * (m : ℝ) = 2 * (q * p) + p := by linarith
      exact_mod_cast htie
    · left
      have htie : 2 * ((q : ℝ) * p) = 2 * m + p := by linarith
      exact_mod_cast htie

/-- The nearest integer, the even one of two. -/
noncomputable def nearest (x : ℝ) : ℤ :=
  if x - ⌊x⌋ < 1 / 2 ∨ (x - ⌊x⌋ = 1 / 2 ∧ Even ⌊x⌋) then ⌊x⌋ else ⌊x⌋ + 1

theorem isNearest_nearest (x : ℝ) : IsNearest x (nearest x) := by
  have hlow := Int.floor_le x
  have hhigh := Int.lt_floor_add_one x
  unfold nearest
  split
  · next h =>
    constructor
    · rw [abs_le]
      rcases h with h | ⟨h, -⟩ <;> constructor <;> linarith
    · intro hhalf
      rw [abs_of_nonneg (by linarith)] at hhalf
      exact (h.resolve_left hhalf.not_lt).2
  · next h =>
    rw [not_or, not_lt, not_and] at h
    have hcast : ((⌊x⌋ + 1 : ℤ) : ℝ) = ⌊x⌋ + 1 := by push_cast; ring
    rw [← hcast] at hhigh
    constructor
    · rw [hcast, abs_le]
      constructor <;> linarith
    · intro hhalf
      rw [abs_of_neg (by linarith), hcast] at hhalf
      rw [Int.even_add_one]
      exact h.2 (by linarith)

theorem IsNearest.eq (h : IsNearest x n) : nearest x = n := (isNearest_nearest x).unique h

theorem nearest_intCast (n : ℤ) : nearest n = n := (isNearest_intCast n).eq

theorem nearest_zero : nearest 0 = 0 := by
  exact_mod_cast nearest_intCast 0

theorem nearest_mono (h : x ≤ y) : nearest x ≤ nearest y :=
  (isNearest_nearest x).mono (isNearest_nearest y) h

theorem nearest_neg (x : ℝ) : nearest (-x) = -nearest x := (isNearest_nearest x).neg.eq

/-! ## Numbers of 53 bits -/

/-- The exponent of the last bit of a double as large as `x`. -/
noncomputable def lastExponent (x : ℝ) : ℤ := max (Int.log 2 |x| - 52) (-1074)

/-- The nearest number of 53 bits, with an exponent that is not too small. -/
noncomputable def rounded (x : ℝ) : ℝ := nearest (x / 2 ^ lastExponent x) * 2 ^ lastExponent x

theorem lastExponent_neg (x : ℝ) : lastExponent (-x) = lastExponent x := by
  rw [lastExponent, abs_neg, lastExponent]

theorem rounded_neg (x : ℝ) : rounded (-x) = -rounded x := by
  rw [rounded, lastExponent_neg, neg_div, nearest_neg, rounded]
  push_cast
  ring

theorem rounded_zero : rounded 0 = 0 := by
  rw [rounded, zero_div, nearest_zero, Int.cast_zero, zero_mul]

theorem two_zpow_pos (n : ℤ) : (0 : ℝ) < 2 ^ n := zpow_pos two_pos n

theorem two_zpow_le {n k : ℤ} (h : n ≤ k) : (2 : ℝ) ^ n ≤ 2 ^ k := zpow_le_zpow_right₀ one_le_two h

theorem two_zpow_add (n k : ℤ) : (2 : ℝ) ^ (n + k) = 2 ^ n * 2 ^ k := zpow_add₀ two_ne_zero n k

theorem two_zpow_eq (h : n ≤ k) : (2 : ℝ) ^ k = 2 ^ (k - n).toNat * 2 ^ n := by
  rw [← zpow_natCast, ← two_zpow_add, Int.toNat_of_nonneg (sub_nonneg.mpr h), sub_add_cancel]

theorem rounded_nonneg (h : 0 ≤ x) : 0 ≤ rounded x := by
  have hnearest := nearest_mono (div_nonneg h (two_zpow_pos (lastExponent x)).le)
  rw [nearest_zero] at hnearest
  exact mul_nonneg (by exact_mod_cast hnearest) (two_zpow_pos _).le

/-- A number is less than two to the power of 53 times the unit of its last bit, and so is what it
is rounded to, or equal. -/
theorem rounded_le_two_zpow (x : ℝ) : rounded x ≤ 2 ^ (53 + lastExponent x) := by
  have hsize : x < 2 ^ (53 + lastExponent x) := by
    have hlog : x < 2 ^ (Int.log 2 |x| + 1) := by
      have hlt := Int.lt_zpow_succ_log_self (b := 2) one_lt_two |x|
      rw [Nat.cast_ofNat] at hlt
      exact (le_abs_self x).trans_lt hlt
    apply hlog.trans_le (two_zpow_le _)
    rw [lastExponent]
    omega
  have hquotient : x / 2 ^ lastExponent x ≤ ((2 ^ 53 : ℤ) : ℝ) := by
    rw [div_le_iff₀ (two_zpow_pos _)]
    rw [two_zpow_add] at hsize
    exact_mod_cast hsize.le
  have hnearest := nearest_mono hquotient
  rw [nearest_intCast] at hnearest
  rw [rounded, two_zpow_add]
  apply mul_le_mul_of_nonneg_right _ (two_zpow_pos _).le
  exact_mod_cast hnearest

/-- If the last bit is not the least possible one, there are 52 others before it. -/
theorem two_zpow_le_rounded (hx : 0 < x) (h : lastExponent x ≠ -1074) :
    (2 : ℝ) ^ (52 + lastExponent x) ≤ rounded x := by
  have hlog : 52 + lastExponent x = Int.log 2 |x| := by
    rw [lastExponent] at h ⊢
    omega
  have hsize : (2 : ℝ) ^ (52 + lastExponent x) ≤ x := by
    have hle := Int.zpow_log_le_self (b := 2) one_lt_two (abs_pos.mpr hx.ne')
    rwa [Nat.cast_ofNat, abs_of_pos hx, ← abs_of_pos hx, ← hlog, abs_of_pos hx] at hle
  have hquotient : ((2 ^ 52 : ℤ) : ℝ) ≤ x / 2 ^ lastExponent x := by
    rw [le_div_iff₀ (two_zpow_pos _)]
    rw [two_zpow_add] at hsize
    exact_mod_cast hsize
  have hnearest := nearest_mono hquotient
  rw [nearest_intCast] at hnearest
  rw [rounded, two_zpow_add]
  apply mul_le_mul_of_nonneg_right _ (two_zpow_pos _).le
  exact_mod_cast hnearest

theorem rounded_le_rounded_of_pos (hx : 0 < x) (h : x ≤ y) : rounded x ≤ rounded y := by
  have hy : 0 < y := hx.trans_le h
  have hexponent : lastExponent x ≤ lastExponent y := by
    have hlog : Int.log 2 |x| ≤ Int.log 2 |y| := by
      apply Int.log_mono_right (abs_pos.mpr hx.ne')
      rwa [abs_of_pos hx, abs_of_pos hy]
    rw [lastExponent, lastExponent]
    omega
  rcases hexponent.eq_or_lt with heq | hlt
  · rw [rounded, rounded, ← heq]
    apply mul_le_mul_of_nonneg_right _ (two_zpow_pos _).le
    exact_mod_cast nearest_mono (div_le_div_of_nonneg_right h (two_zpow_pos _).le)
  · -- The numbers do not have the same last bit, so a power of two lies between the results.
    have hleast : lastExponent y ≠ -1074 := by
      have hbound : -1074 ≤ lastExponent x := le_max_right _ _
      omega
    calc rounded x ≤ 2 ^ (53 + lastExponent x) := rounded_le_two_zpow x
      _ ≤ 2 ^ (52 + lastExponent y) := two_zpow_le (by omega)
      _ ≤ rounded y := two_zpow_le_rounded hy hleast

theorem rounded_mono : Monotone rounded := by
  intro x y h
  rcases le_or_gt x 0 with hx | hx
  · rcases le_or_gt 0 y with hy | hy
    · have hneg := rounded_nonneg (neg_nonneg.mpr hx)
      rw [rounded_neg] at hneg
      exact (neg_nonneg.mp hneg).trans (rounded_nonneg hy)
    · have hneg := rounded_le_rounded_of_pos (neg_pos.mpr hy) (neg_le_neg h)
      rw [rounded_neg, rounded_neg] at hneg
      exact neg_le_neg_iff.mp hneg
  · exact rounded_le_rounded_of_pos hx h

theorem rounded_eq (hy : y * 2 ^ lastExponent x = x) (h : IsNearest y n) :
    rounded x = n * 2 ^ lastExponent x := by
  have hquotient : x / 2 ^ lastExponent x = y := by
    rw [div_eq_iff (two_zpow_pos _).ne', hy]
  rw [rounded, hquotient, h.eq]

/-- What has an integral multiplier is not rounded. -/
theorem rounded_eq_self (h : x = n * 2 ^ lastExponent x) : rounded x = x := by
  rw [rounded_eq h.symm (isNearest_intCast n), ← h]

theorem rounded_least : rounded (2 ^ (-1074 : ℤ)) = 2 ^ (-1074 : ℤ) := by
  have hlog : Int.log 2 |(2 : ℝ) ^ (-1074 : ℤ)| = -1074 := by
    rw [abs_of_pos (two_zpow_pos _)]
    exact_mod_cast Int.log_zpow (R := ℝ) one_lt_two (-1074)
  have hexponent : lastExponent (2 ^ (-1074 : ℤ)) = -1074 := by
    rw [lastExponent, hlog]
    norm_num
  apply rounded_eq_self (n := 1)
  rw [hexponent, Int.cast_one, one_mul]

/-- Nothing that is at least as large as the smallest double is rounded to zero. -/
theorem rounded_ne_zero (h : 2 ^ (-1074 : ℤ) ≤ |x|) : rounded x ≠ 0 := by
  have hpos : 0 < rounded |x| := by
    apply (two_zpow_pos (-1074)).trans_le
    rw [← rounded_least]
    exact rounded_mono h
  rcases abs_choice x with hx | hx
  · rw [hx] at hpos
    exact hpos.ne'
  · rw [hx, rounded_neg] at hpos
    exact neg_ne_zero.mp hpos.ne'

/-! ## Doubles -/

/-- A number with the given sign. -/
def signed : Sign → ℝ → ℝ
  | .positive, x => x
  | .negative, x => -x

/-- The number that an unpacked double stands for. -/
noncomputable def valueOf : UnpackedFloat → Option EReal
  | .notANumber => none
  | .infinity .positive => some ⊤
  | .infinity .negative => some ⊥
  | .zero _ => some 0
  | .finite s m e _ => some (signed s (m * 2 ^ e) : ℝ)

/-- The double that stands for a number of 53 bits, an infinity if the number is too large. -/
noncomputable def saturated (r : ℝ) : EReal :=
  if 2 ^ (1024 : ℤ) ≤ r then ⊤ else if r ≤ -2 ^ (1024 : ℤ) then ⊥ else r

theorem saturated_of_abs_lt (h : |x| < 2 ^ (1024 : ℤ)) : saturated x = x := by
  rw [abs_lt] at h
  rw [saturated, if_neg (not_le.mpr h.2), if_neg (not_le.mpr h.1)]

theorem saturated_neg (r : ℝ) : saturated (-r) = -saturated r := by
  have hpos := two_zpow_pos 1024
  unfold saturated
  generalize (2 : ℝ) ^ (1024 : ℤ) = bound at hpos ⊢
  by_cases hhigh : bound ≤ r
  · have hneg : ¬ bound ≤ -r := by linarith
    rw [if_neg hneg, if_pos (neg_le_neg hhigh), if_pos hhigh, EReal.neg_top]
  · by_cases hlow : r ≤ -bound
    · rw [if_pos (le_neg_of_le_neg hlow), if_neg hhigh, if_pos hlow, EReal.neg_bot]
    · have hneg : ¬ bound ≤ -r := fun h => hlow (le_neg_of_le_neg h)
      have hneg' : ¬ -r ≤ -bound := fun h => hhigh (neg_le_neg_iff.mp h)
      rw [if_neg hneg, if_neg hneg', if_neg hhigh, if_neg hlow, EReal.coe_neg]

theorem saturated_mono : Monotone saturated := by
  intro x y h
  unfold saturated
  split
  · next hx => rw [if_pos (hx.trans h)]
  · split
    · exact bot_le
    · next hx =>
      split
      · exact le_top
      · rw [if_neg fun hy => hx (h.trans hy)]
        exact EReal.coe_le_coe_iff.mpr h

theorem saturated_eq_zero_iff : saturated x = 0 ↔ x = 0 := by
  have hpos := two_zpow_pos 1024
  unfold saturated
  split
  · next h => exact iff_of_false EReal.top_ne_zero (hpos.trans_le h).ne'
  · split
    · next h => exact iff_of_false EReal.bot_ne_zero (h.trans_lt (neg_lt_zero.mpr hpos)).ne
    · exact EReal.coe_eq_zero

/-- The double that a real number is rounded to. -/
noncomputable def nearestDouble (x : ℝ) : EReal := saturated (rounded x)

theorem nearestDouble_mono : Monotone nearestDouble := saturated_mono.comp rounded_mono

theorem nearestDouble_neg (x : ℝ) : nearestDouble (-x) = -nearestDouble x := by
  rw [nearestDouble, rounded_neg, saturated_neg, nearestDouble]

theorem nearestDouble_zero : nearestDouble 0 = 0 := by
  rw [nearestDouble, rounded_zero, saturated_eq_zero_iff]

theorem nearestDouble_ne_zero (h : 2 ^ (-1074 : ℤ) ≤ |x|) : nearestDouble x ≠ 0 :=
  saturated_eq_zero_iff.not.mpr (rounded_ne_zero h)

end Georeferencing.Double
