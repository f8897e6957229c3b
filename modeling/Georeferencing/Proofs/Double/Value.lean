import Georeferencing.Proofs.Double.Packing

/-! # The numbers that doubles stand for

A double that is a number stands for a real number or for an infinity, and two doubles that stand
for the same one are alike. Doubles are ordered as the numbers they stand for, and a difference or a
product of finite doubles stands for the double nearest to the difference or the product of the real
numbers.
-/

namespace Georeferencing.Double

open Float.Model Float.Model.UnpackedFloat

variable {a b : Float} {u : UnpackedFloat} {p q : EReal} {s t : Sign} {m n : ℕ} {d e : ℤ} {x y : ℝ}

/-- The number that a double stands for, if it is a number. -/
noncomputable def value (a : Float) : Option EReal := valueOf (unpacked a)

theorem written_unpacked (a : Float) : Written (unpacked a) := by
  cases h : unpacked a with
  | finite s m e hm => exact targetExponent_unpack h
  | _ => trivial

theorem value_eq_none_iff : value a = none ↔ Scalar.isNaN a = true := by
  rw [isNaN_iff, value, valueOf_eq_none_iff]

theorem exists_value (h : Scalar.isNaN a = false) : ∃ p, value a = some p := by
  rw [← Option.ne_none_iff_exists', ne_eq, value_eq_none_iff, h]
  decide

/-- A double that stands for a real number is a zero, or has a mantissa and the exponent that goes
with it. -/
theorem unpacked_of_value (h : value a = some (x : EReal)) :
    (∃ s, unpacked a = .zero s ∧ x = 0) ∨
      ∃ s m e, ∃ hm : 0 < m, unpacked a = .finite s m e hm ∧ Canonical m e ∧
        x = signed s (m * 2 ^ e) := by
  have hwritten := written_unpacked a
  rcases finite_of_valueOf h with ⟨s, hs, hx⟩ | ⟨s, m, e, hm, hs, hx⟩
  · exact .inl ⟨s, hs, hx⟩
  · rw [hs] at hwritten
    exact .inr ⟨s, m, e, hm, hs, hwritten, hx⟩

theorem isFinite_iff_exists_value :
    Scalar.isFinite a = true ↔ ∃ x : ℝ, value a = some (x : EReal) := by
  rw [isFinite_iff]
  constructor
  · intro h
    rw [value]
    cases hu : unpacked a with
    | zero s => exact ⟨0, rfl⟩
    | finite s m e hm => exact ⟨_, rfl⟩
    | _ =>
      rw [hu] at h
      cases h
  · rintro ⟨x, hx⟩
    rcases unpacked_of_value hx with ⟨s, hs, -⟩ | ⟨s, m, e, hm, hs, -⟩ <;> rw [hs] <;> rfl

theorem rounded_canonical (s : Sign) (hm : 0 < m) (h : Canonical m e) :
    rounded (signed s (m * 2 ^ e)) = signed s (m * 2 ^ e) := by
  rw [rounded_signed]
  congr 1
  apply rounded_eq_self (n := m)
  rw [lastExponent_eq hm e, h, Int.cast_natCast]

theorem valueOf_pack_canonical (s : Sign) (hm : 0 < m) (h : Canonical m e) :
    valueOf (Float.Model.pack (.finite s m e hm)).unpack =
      some (nearestDouble (signed s (m * 2 ^ e))) := by
  rw [valueOf_pack s hm h, nearestDouble, rounded_canonical s hm h]

/-- A mantissa can be given a smaller exponent. -/
theorem apply_aligned (s : Sign) (m : ℕ) (h : d ≤ e) :
    (s.apply (decreaseExponent m e d).1 : ℝ) * 2 ^ d = signed s (m * 2 ^ e) := by
  have hshift : (((m <<< (e - d).toNat : ℕ) : ℤ) : ℝ) = m * 2 ^ (e - d).toNat := by
    rw [Nat.shiftLeft_eq]
    push_cast
    rfl
  rw [decreaseExponent, apply_eq_signed, hshift, two_zpow_eq h, ← mul_assoc]
  cases s with
  | positive => rfl
  | negative => exact neg_mul _ _

theorem value_sub (ha : value a = some (x : EReal)) (hb : value b = some (y : EReal)) :
    value (a - b) = some (nearestDouble (x - y)) := by
  have hsub : value (a - b) =
      valueOf (Float.Model.pack (sub .binary64 (unpacked a) (unpacked b))).unpack := rfl
  rw [hsub]
  rcases unpacked_of_value ha with ⟨s, hs, rfl⟩ | ⟨s, m, e, hm, hs, hsc, rfl⟩
  · rw [hs, zero_sub]
    rcases unpacked_of_value hb with ⟨t, ht, rfl⟩ | ⟨t, n, d, hn, ht, htc, rfl⟩
    · rw [ht, neg_zero, nearestDouble_zero]
      cases s <;> cases t <;> rfl
    · rw [ht, ← signed_neg]
      exact valueOf_pack_canonical (-t) hn htc
  · rw [hs]
    rcases unpacked_of_value hb with ⟨t, ht, rfl⟩ | ⟨t, n, d, hn, ht, htc, rfl⟩
    · rw [ht, sub_zero]
      exact valueOf_pack_canonical s hm hsc
    · rw [ht, UnpackedFloat.sub]
      simp only
      rw [valueOf_pack_normalize, Int.cast_sub, sub_mul, apply_aligned s m (min_le_left e d),
        apply_aligned t n (min_le_right e d)]

/-- The product of two mantissas has enough bits to be rounded. -/
theorem le_lastExponent_mul (hm : 0 < m) (hn : 0 < n) (hme : Canonical m e) (hnd : Canonical n d) :
    e + d ≤ lastExponent ((m * n : ℕ) * 2 ^ (e + d)) := by
  obtain ⟨-, hleast, hlast⟩ := (canonical_iff hm).mp hme
  obtain ⟨-, hleast', hlast'⟩ := (canonical_iff hn).mp hnd
  rw [lastExponent_eq (Nat.mul_pos hm hn), targetExponent_eq, totalExponent]
  by_cases hbits : 2 ^ 52 ≤ m * n
  · have hlog := (Nat.le_log2 (Nat.mul_pos hm hn).ne').mpr hbits
    omega
  · have hm52 : ¬ 2 ^ 52 ≤ m := fun h => hbits (h.trans (Nat.le_mul_of_pos_right m hn))
    have hn52 : ¬ 2 ^ 52 ≤ n := fun h => hbits (h.trans (Nat.le_mul_of_pos_left n hm))
    have he := hlast.resolve_left hm52
    have hd := hlast'.resolve_left hn52
    omega

theorem signed_mul (s t : Sign) (x y : ℝ) : signed (s * t) (x * y) = signed s x * signed t y := by
  cases s <;> cases t
  · exact (neg_mul_neg x y).symm
  · exact (neg_mul x y).symm
  · exact (mul_neg x y).symm
  · rfl

theorem value_mul (ha : value a = some (x : EReal)) (hb : value b = some (y : EReal)) :
    value (a * b) = some (nearestDouble (x * y)) := by
  have hmul : value (a * b) =
      valueOf (Float.Model.pack (mul .binary64 (unpacked a) (unpacked b))).unpack := rfl
  rw [hmul]
  rcases unpacked_of_value ha with ⟨s, hs, rfl⟩ | ⟨s, m, e, hm, hs, hsc, rfl⟩
  · rw [hs, zero_mul, nearestDouble_zero]
    rcases unpacked_of_value hb with ⟨t, ht, -⟩ | ⟨t, n, d, hn, ht, -⟩
    · rw [ht]
      exact congrArg valueOf (unpack_pack_zero (s * t))
    · rw [ht]
      exact congrArg valueOf (unpack_pack_zero (s * t))
  · rw [hs]
    rcases unpacked_of_value hb with ⟨t, ht, rfl⟩ | ⟨t, n, d, hn, ht, htc, rfl⟩
    · rw [ht, mul_zero, nearestDouble_zero]
      exact congrArg valueOf (unpack_pack_zero (s * t))
    · have hproduct : signed s (m * 2 ^ e) * signed t (n * 2 ^ d) =
          signed (s * t) ((m * n : ℕ) * 2 ^ (e + d)) := by
        rw [← signed_mul, two_zpow_add]
        push_cast
        congr 1
        ring
      rw [ht, hproduct]
      exact valueOf_pack_roundWithAccuracy _ (Nat.mul_pos hm hn)
        (le_lastExponent_mul hm hn hsc htc)

theorem valueOf_pack_neg (hu : Written u) (h : valueOf (Float.Model.pack u).unpack = some p) :
    valueOf (Float.Model.pack (neg u)).unpack = some (-p) := by
  cases u with
  | notANumber => cases h
  | infinity s =>
    rw [unpack_pack_infinity] at h
    rw [UnpackedFloat.neg, unpack_pack_infinity]
    cases s <;> cases h <;> rfl
  | zero s =>
    rw [unpack_pack_zero] at h
    rw [UnpackedFloat.neg, unpack_pack_zero, ← Option.some.inj h, neg_zero]
    rfl
  | finite s m e hm =>
    rw [valueOf_pack_canonical s hm hu] at h
    rw [UnpackedFloat.neg, valueOf_pack_canonical (-s) hm hu, signed_neg, nearestDouble_neg,
      Option.some.inj h]

theorem value_neg (h : value a = some p) : value (-a) = some (-p) := by
  have hself : value a = valueOf (Float.Model.pack (unpacked a)).unpack := by
    rw [unpacked, pack_unpack]
    rfl
  rw [hself] at h
  exact valueOf_pack_neg (written_unpacked a) h

/-! ## Order -/

/-- Doubles that are numbers are compared as the numbers that they stand for. -/
theorem compares (ha : value a = some p) (hb : value b = some q) :
    ∃ o, (unpacked a).compare (unpacked b) = some o ∧ o.Compares p q :=
  compares_valueOf (written_unpacked a) (written_unpacked b) ha hb

theorem le_iff_value (ha : value a = some p) (hb : value b = some q) : a ≤ b ↔ p ≤ q := by
  obtain ⟨o, ho, hcompares⟩ := compares ha hb
  rw [le_iff, ho, ← hcompares.ne_gt]
  cases o <;> simp

theorem lt_iff_value (ha : value a = some p) (hb : value b = some q) : a < b ↔ p < q := by
  obtain ⟨o, ho, hcompares⟩ := compares ha hb
  rw [lt_iff, ho, ← hcompares.eq_lt, Option.some_inj]

theorem beq_iff_value (ha : value a = some p) (hb : value b = some q) :
    (a == b) = true ↔ p = q := by
  obtain ⟨o, ho, hcompares⟩ := compares ha hb
  rw [beq_iff, ho, ← hcompares.eq_eq, Option.some_inj]

theorem value_zero : value 0 = some 0 := rfl

/-- Two doubles are alike if they stand for the same number, or neither of them for any. -/
theorem like_iff_value : Like a b ↔ value a = value b := by
  constructor
  · intro h
    rcases like_iff.mp h with rfl | ⟨⟨s, hs⟩, t, ht⟩
    · rfl
    · rw [value, value, hs, ht, valueOf, valueOf]
  · intro h
    cases ha : value a with
    | none => exact .inr ⟨value_eq_none_iff.mp ha, value_eq_none_iff.mp (h ▸ ha)⟩
    | some p => exact .inl ((beq_iff_value ha (h ▸ ha)).mpr rfl)

/-- Only numbers can be compared. -/
theorem le_iff_exists_value : a ≤ b ↔ ∃ p q, value a = some p ∧ value b = some q ∧ p ≤ q := by
  cases ha : value a with
  | none =>
    rw [value_eq_none_iff] at ha
    apply iff_of_false
    · rw [le_iff, compare_of_isNaN (.inl ha)]
      decide
    · rintro ⟨p, q, ⟨⟩, -⟩
  | some p =>
    cases hb : value b with
    | none =>
      rw [value_eq_none_iff] at hb
      apply iff_of_false
      · rw [le_iff, compare_of_isNaN (.inr hb)]
        decide
      · rintro ⟨p, q, -, ⟨⟩, -⟩
    | some q =>
      rw [le_iff_value ha hb]
      simp only [Option.some.injEq, exists_and_left, exists_eq_left']

protected theorem le_trans {c : Float} (h : a ≤ b) (h' : b ≤ c) : a ≤ c := by
  rw [le_iff_exists_value] at h h' ⊢
  obtain ⟨p, q, hp, hq, hpq⟩ := h
  obtain ⟨q', r, hq', hr, hqr⟩ := h'
  cases Option.some.inj (hq.symm.trans hq')
  exact ⟨p, r, hp, hr, hpq.trans hqr⟩

/-- The absolute value of a number, which may be an infinity. -/
noncomputable def size (p : EReal) : EReal := max p (-p)

theorem size_neg (p : EReal) : size (-p) = size p := by
  rw [size, neg_neg, max_comm, size]

theorem size_coe (x : ℝ) : size x = (|x| : ℝ) := by
  rw [size, ← EReal.coe_neg, ← EReal.coe_strictMono.monotone.map_max, abs_eq_max_neg]

theorem size_le_zero_iff : size p ≤ 0 ↔ p = 0 := by
  rw [size, max_le_iff, EReal.neg_le, neg_zero, ← le_antisymm_iff]

theorem value_abs (a : Float) : value (Scalar.abs a) = (value a).map size := by
  cases ha : value a with
  | none =>
    rw [value_eq_none_iff, isNaN_iff] at ha
    rw [Option.map_none, value_eq_none_iff, isNaN_iff]
    exact unpacked_abs_notANumber ha
  | some p =>
    rw [Option.map_some, Scalar.abs, size]
    split
    · next h =>
      have hp : p < 0 := (lt_iff_value ha value_zero).mp h
      have hneg : 0 ≤ -p := EReal.neg_nonneg.mpr hp.le
      rw [value_neg ha, max_eq_right (hp.le.trans hneg)]
    · next h =>
      have hp : 0 ≤ p := not_lt.mp (mt (lt_iff_value ha value_zero).mpr h)
      have hneg : -p ≤ 0 := EReal.neg_le_zero.mpr hp
      rw [ha, max_eq_left (hneg.trans hp)]

theorem value_max (ha : value a = some p) (hb : value b = some q) :
    value (Scalar.max a b) = some (max p q) := by
  have hnan : ¬ Scalar.isNaN a = true := by
    rw [← value_eq_none_iff, ha]
    exact Option.some_ne_none p
  rw [Scalar.max, if_neg hnan]
  split
  · next h => rw [hb, max_eq_right ((lt_iff_value ha hb).mp h).le]
  · next h => rw [ha, max_eq_left (not_lt.mp (mt (lt_iff_value ha hb).mpr h))]

theorem IsZero.value_eq (h : IsZero a) : value a = some 0 := by
  obtain ⟨s, hs⟩ := h
  rw [value, hs, valueOf]

theorem rounded_two_zpow (hk : -1022 ≤ e) : rounded (2 ^ e) = 2 ^ e := by
  have hcanonical : Canonical (2 ^ 52) (e - 52) := by
    rw [canonical_iff (by norm_num)]
    exact ⟨by norm_num, by omega, .inl le_rfl⟩
  have hvalue : signed .positive ((2 ^ 52 : ℕ) * 2 ^ (e - 52)) = 2 ^ e := by
    rw [signed, Nat.cast_pow, Nat.cast_ofNat, ← zpow_natCast, ← two_zpow_add]
    congr 1
    omega
  rw [← hvalue, rounded_canonical .positive (by norm_num) hcanonical]

/-- What is within a power of two is rounded to something within it. -/
theorem exists_nearestDouble (hlow : -1022 ≤ e) (hhigh : e < 1024) (h : |x| ≤ 2 ^ e) :
    ∃ y : ℝ, nearestDouble x = y ∧ |y| ≤ 2 ^ e := by
  obtain ⟨hle, hle'⟩ := abs_le.mp h
  have hrounded : |rounded x| ≤ 2 ^ e := by
    rw [abs_le]
    constructor
    · rw [← rounded_two_zpow hlow, ← rounded_neg]
      exact rounded_mono hle
    · rw [← rounded_two_zpow hlow]
      exact rounded_mono hle'
  have hfinite : |rounded x| < 2 ^ (1024 : ℤ) :=
    hrounded.trans_lt (zpow_lt_zpow_right₀ one_lt_two hhigh)
  exact ⟨rounded x, saturated_of_abs_lt hfinite, hrounded⟩

/-- Doubles are multiples of the smallest one. -/
theorem exists_eq_mul_least (h : value a = some (x : EReal)) :
    ∃ n : ℤ, x = n * 2 ^ (-1074 : ℤ) := by
  rcases unpacked_of_value h with ⟨-, -, rfl⟩ | ⟨s, m, e, hm, -, hcanonical, rfl⟩
  · exact ⟨0, by rw [Int.cast_zero, zero_mul]⟩
  · obtain ⟨-, hleast, -⟩ := (canonical_iff hm).mp hcanonical
    exact ⟨_, (apply_aligned s m hleast).symm⟩

/-- Different doubles have a difference that does not vanish when it is rounded. -/
theorem nearestDouble_sub_eq_zero_iff (ha : value a = some (x : EReal))
    (hb : value b = some (y : EReal)) : nearestDouble (x - y) = 0 ↔ x = y := by
  constructor
  · intro h
    obtain ⟨n, hn⟩ := exists_eq_mul_least ha
    obtain ⟨k, hk⟩ := exists_eq_mul_least hb
    by_contra hne
    have hsub : x - y = ((n - k : ℤ) : ℝ) * 2 ^ (-1074 : ℤ) := by
      rw [hn, hk]
      push_cast
      ring
    have hnk : n - k ≠ 0 := by
      intro hzero
      rw [hzero, Int.cast_zero, zero_mul] at hsub
      exact hne (sub_eq_zero.mp hsub)
    refine nearestDouble_ne_zero ?_ h
    rw [hsub, abs_mul, abs_of_pos (two_zpow_pos _)]
    have hone : (1 : ℝ) ≤ |((n - k : ℤ) : ℝ)| := by exact_mod_cast Int.one_le_abs hnk
    exact le_mul_of_one_le_left (two_zpow_pos _).le hone
  · rintro rfl
    rw [sub_self, nearestDouble_zero]

end Georeferencing.Double
