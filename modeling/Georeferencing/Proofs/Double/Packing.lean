import Georeferencing.Proofs.Double
import Georeferencing.Proofs.Double.Rounding

/-! # Unpacked doubles and the numbers they stand for

A finite double is written with the exponent that rounding aims at, so that exponents and mantissas
can be compared one after the other. Rounding shifts bits out, of which the last one is kept and of
the others whether any was set, then rounds the mantissa, and if that makes it one bit too long a
zero is shifted out. What is packed afterwards stands for the double nearest to the number before.
-/

namespace Georeferencing.Double

open Float.Model Float.Model.UnpackedFloat

/-- A mantissa and an exponent as they are written, the exponent being what rounding aims at. -/
def Canonical (m : ℕ) (e : ℤ) : Prop := Format.binary64.targetExponent (totalExponent m e) = e

/-- A finite double as it is written. -/
def Written : UnpackedFloat → Prop
  | .finite _ m e _ => Canonical m e
  | _ => True

variable {u v : UnpackedFloat} {p q : EReal} {s t : Sign} {m n k : ℕ} {d e : ℤ} {x : ℝ}

theorem mul_two_zpow_pos (hm : 0 < m) (e : ℤ) : (0 : ℝ) < m * 2 ^ e :=
  mul_pos (by exact_mod_cast hm) (two_zpow_pos e)

theorem valueOf_eq_none_iff : valueOf u = none ↔ u = .notANumber := by
  cases u with
  | infinity s => cases s <;> simp [valueOf]
  | _ => simp [valueOf]

theorem eq_infinity_of_valueOf (h : valueOf u = some ⊤) : u = .infinity .positive := by
  cases u with
  | notANumber => cases h
  | infinity s =>
    cases s
    · exact absurd (Option.some.inj h) bot_ne_top
    · rfl
  | zero s => exact absurd (Option.some.inj h) EReal.zero_ne_top
  | finite s m e hm => exact absurd (Option.some.inj h) (EReal.coe_ne_top _)

/-- What stands for a real number is a zero, or has a mantissa. -/
theorem finite_of_valueOf (h : valueOf u = some (x : EReal)) :
    (∃ s, u = .zero s ∧ x = 0) ∨
      ∃ s m e, ∃ hm : 0 < m, u = .finite s m e hm ∧ x = signed s (m * 2 ^ e) := by
  cases u with
  | notANumber => cases h
  | infinity s =>
    cases s
    · exact absurd (Option.some.inj h) (EReal.bot_ne_coe x)
    · exact absurd (Option.some.inj h) (EReal.top_ne_coe x)
  | zero s => exact .inl ⟨s, rfl, EReal.coe_eq_zero.mp (Option.some.inj h).symm⟩
  | finite s m e hm =>
    exact .inr ⟨s, m, e, hm, rfl, (EReal.coe_eq_coe_iff.mp (Option.some.inj h)).symm⟩

theorem canonical_iff (hm : 0 < m) :
    Canonical m e ↔ m < 2 ^ 53 ∧ -1074 ≤ e ∧ (2 ^ 52 ≤ m ∨ e = -1074) := by
  rw [Canonical, targetExponent_eq, totalExponent, ← Nat.log2_lt hm.ne', ← Nat.le_log2 hm.ne']
  omega

@[simp] theorem signed_zero (s : Sign) : signed s 0 = 0 := by
  cases s with
  | positive => rfl
  | negative => exact neg_zero

theorem rounded_signed (s : Sign) (x : ℝ) : rounded (signed s x) = signed s (rounded x) := by
  cases s with
  | positive => rfl
  | negative => exact rounded_neg x

/-! ## Rounding a mantissa -/

/-- After some shifts, the first bit behind the mantissa tells whether what has been shifted out is
at least one half of a unit, and the other one whether it is neither nothing nor just one half. -/
theorem shiftRight_eq (m k : ℕ) :
    (ExtendedMantissa.ofMantissaAndAccuracy m .exact) >>> k =
      ⟨m / 2 ^ k, decide (2 ^ k ≤ 2 * (m % 2 ^ k)),
        decide (2 * (m % 2 ^ k) ≠ 0 ∧ 2 * (m % 2 ^ k) ≠ 2 ^ k)⟩ := by
  change k.repeat ExtendedMantissa.shiftRightOne ⟨m, false, false⟩ = _
  induction k with
  | zero => simp [Nat.repeat, Nat.mod_one]
  | succ k ih =>
    have hlt : m % 2 ^ k < 2 ^ k := Nat.mod_lt _ (Nat.two_pow_pos k)
    have hmod : m % 2 ^ (k + 1) = m % 2 ^ k + 2 ^ k * (m / 2 ^ k % 2) := by
      rw [pow_succ, Nat.mod_mul]
    rw [Nat.repeat, ih, ExtendedMantissa.shiftRightOne, hmod, pow_succ, Nat.div_div_eq_div_mul]
    simp only [ExtendedMantissa.mk.injEq, true_and]
    generalize m / 2 ^ k = q
    generalize m % 2 ^ k = r at hlt
    generalize 2 ^ k = p at hlt
    rcases Nat.mod_two_eq_zero_or_one q with hq | hq
    · rw [hq, Nat.mul_zero, Nat.add_zero]
      constructor
      · exact (decide_eq_false (by omega)).symm
      · rw [← Bool.decide_or, decide_eq_decide]
        omega
    · rw [hq, Nat.mul_one]
      constructor
      · exact (decide_eq_true (by omega)).symm
      · rw [← Bool.decide_or, decide_eq_decide]
        omega

/-- The two bits are enough to round to the nearest integer. -/
theorem isNearest_shiftRight (hx : x * 2 ^ k = m) :
    IsNearest x ((ExtendedMantissa.ofMantissaAndAccuracy m .exact) >>> k).roundedMantissa := by
  have hlt : m % 2 ^ k < 2 ^ k := Nat.mod_lt _ (Nat.two_pow_pos k)
  have hparts : m = m / 2 ^ k * 2 ^ k + m % 2 ^ k := (Nat.div_add_mod' m (2 ^ k)).symm
  have hcast : (2 : ℝ) ^ k = (2 ^ k : ℕ) := by push_cast; rfl
  rw [hcast] at hx
  rw [shiftRight_eq]
  generalize m / 2 ^ k = q at hparts ⊢
  generalize m % 2 ^ k = r at hlt hparts ⊢
  generalize 2 ^ k = p at hx hlt hparts ⊢
  have hp : 0 < p := by omega
  rcases lt_trichotomy (2 * r) p with hr | hr | hr
  · have hrounded : ExtendedMantissa.roundedMantissa
        ⟨q, decide (p ≤ 2 * r), decide (2 * r ≠ 0 ∧ 2 * r ≠ p)⟩ = q := by
      rw [decide_eq_false (not_le.mpr hr)]
      cases decide (2 * r ≠ 0 ∧ 2 * r ≠ p) <;> rfl
    rw [hrounded]
    apply isNearest_of_mul hp hx <;> omega
  · have hrounded : ExtendedMantissa.roundedMantissa
        ⟨q, decide (p ≤ 2 * r), decide (2 * r ≠ 0 ∧ 2 * r ≠ p)⟩ = q + q % 2 := by
      rw [decide_eq_true hr.ge, decide_eq_false (by omega)]
      rfl
    rw [hrounded]
    have heven : Even (q + q % 2) := by
      rw [Nat.even_iff]
      omega
    rcases Nat.mod_two_eq_zero_or_one q with hq | hq
    · rw [hq, Nat.add_zero] at heven ⊢
      apply isNearest_of_mul hp hx _ _ fun _ => heven <;> omega
    · rw [hq] at heven ⊢
      have hsucc : (q + 1) * p = q * p + p := by ring
      apply isNearest_of_mul hp hx _ _ fun _ => heven <;> omega
  · have hrounded : ExtendedMantissa.roundedMantissa
        ⟨q, decide (p ≤ 2 * r), decide (2 * r ≠ 0 ∧ 2 * r ≠ p)⟩ = q + 1 := by
      rw [decide_eq_true hr.le, decide_eq_true (by omega)]
      rfl
    rw [hrounded]
    have hsucc : (q + 1) * p = q * p + p := by ring
    apply isNearest_of_mul hp hx <;> omega

theorem lastExponent_eq (hm : 0 < m) (e : ℤ) :
    lastExponent (m * 2 ^ e) = Format.binary64.targetExponent (totalExponent m e) := by
  have hpos := mul_two_zpow_pos hm e
  have hlog : Int.log 2 ((m : ℝ) * 2 ^ e) = m.log2 + e := by
    apply le_antisymm
    · have hlt : (m : ℝ) < 2 ^ ((m.log2 : ℤ) + 1) := by exact_mod_cast Nat.lt_log2_self
      rw [← Int.lt_add_one_iff, ← Int.lt_zpow_iff_log_lt one_lt_two hpos, Nat.cast_ofNat,
        add_right_comm, two_zpow_add]
      exact mul_lt_mul_of_pos_right hlt (two_zpow_pos e)
    · have hle : (2 : ℝ) ^ (m.log2 : ℤ) ≤ m := by exact_mod_cast Nat.log2_self_le hm.ne'
      rw [← Int.zpow_le_iff_le_log one_lt_two hpos, Nat.cast_ofNat, two_zpow_add]
      exact mul_le_mul_of_nonneg_right hle (two_zpow_pos e).le
  rw [lastExponent, abs_of_pos hpos, hlog, targetExponent_eq, totalExponent]
  omega

/-! ## Words -/

theorem sign_packComponents (s : Sign) (exponent : BitVec 11) (mantissa : BitVec 52) :
    Sign.ofBitVec (unpackSign (packComponents .binary64 s exponent mantissa)) = s := by
  have hbits : unpackSign (packComponents .binary64 s exponent mantissa) = s.toBitVec := by
    ext i hi
    obtain rfl : i = 0 := by omega
    have hread : (unpackSign (packComponents .binary64 s exponent mantissa))[0] =
        ((s.toBitVec ++ exponent) ++ mantissa).getLsbD 63 := by
      simp only [unpackSign, packComponents, BitVec.getElem_cast, BitVec.extractLsb,
        BitVec.getElem_extractLsb', Nat.add_zero]
    rw [hread, BitVec.getLsbD_append, BitVec.getLsbD_append]
    rfl
  rw [hbits]
  cases s <;> rfl

theorem pack_finite (s : Sign) (e : ℤ) (hm : 0 < m) :
    UnpackedFloat.pack .binary64 (.finite s m e hm) =
      if 2 ^ 11 ≤ (e + 1075).toNat + 1 then packedInfinity .binary64 s
      else if m.log2 + 1 = 53 then
        packComponents .binary64 s (BitVec.ofNat 11 (e + 1075).toNat) (BitVec.ofNat 52 m)
      else packComponents .binary64 s 0#11 (BitVec.ofNat 52 m) := by
  have hbias : e + 1023 + 52 = e + 1075 := by ring
  rw [← hbias]
  rfl

theorem unpack_pack_overflow (hm : 0 < m) (he : 971 < e) :
    (Float.Model.pack (.finite s m e hm)).unpack = .infinity s := by
  change UnpackedFloat.unpack .binary64 (UnpackedFloat.pack .binary64 (.finite s m e hm)) = _
  rw [pack_finite, if_pos (by omega)]
  exact unpack_pack_infinity s

/-- A double whose exponent is not too large is read as it was written. -/
theorem unpack_pack_finite (hm : 0 < m) (h : Canonical m e) (he : e ≤ 971) :
    (Float.Model.pack (.finite s m e hm)).unpack = .finite s m e hm := by
  obtain ⟨hbits, hleast, hlast⟩ := (canonical_iff hm).mp h
  change UnpackedFloat.unpack .binary64 (UnpackedFloat.pack .binary64 (.finite s m e hm)) = _
  rw [pack_finite, if_neg (by omega)]
  by_cases hnormal : 2 ^ 52 ≤ m
  · have hlog : m.log2 + 1 = 53 := by
      rw [Nat.add_right_cancel_iff, Nat.log2_eq_iff hm.ne']
      exact ⟨hnormal, hbits⟩
    have hexponent : (BitVec.ofNat 11 (e + 1075).toNat).toNat = (e + 1075).toNat := by
      rw [BitVec.toNat_ofNat, Nat.mod_eq_of_lt (by omega)]
    have hspecial : BitVec.ofNat 11 (e + 1075).toNat ≠ -1#11 := by
      intro heq
      have hones : (e + 1075).toNat = 2047 := hexponent.symm.trans (congrArg BitVec.toNat heq)
      omega
    have hsmall : BitVec.ofNat 11 (e + 1075).toNat ≠ 0#11 := by
      intro heq
      have hzero : (e + 1075).toNat = 0 := hexponent.symm.trans (congrArg BitVec.toNat heq)
      omega
    have hmantissa : (1#1 ++ BitVec.ofNat 52 m).toNat = m := by
      rw [toNat_implicitBit, BitVec.toNat_ofNat]
      omega
    rw [if_pos hlog, UnpackedFloat.unpack]
    simp only [unpackMantissa_packComponents, unpackExponent_packComponents]
    rw [if_neg hspecial, if_neg hsmall, sign_packComponents]
    simp only [hmantissa, hexponent]
    congr 1
    change ((e + 1075).toNat : ℤ) - (1023 + 52) = e
    omega
  · have hlog : ¬ m.log2 + 1 = 53 := by
      have hlt := (Nat.log2_lt hm.ne').mpr (not_le.mp hnormal)
      omega
    have hmantissa : (BitVec.ofNat 52 m).toNat = m := by
      rw [BitVec.toNat_ofNat, Nat.mod_eq_of_lt (not_le.mp hnormal)]
    have hzero : BitVec.ofNat 52 m ≠ 0#52 := by
      intro heq
      have hm0 : m = 0 := hmantissa.symm.trans (congrArg BitVec.toNat heq)
      omega
    rw [if_neg hlog, UnpackedFloat.unpack]
    simp only [unpackMantissa_packComponents, unpackExponent_packComponents]
    rw [if_neg (by decide), if_pos trivial, dif_neg hzero, sign_packComponents]
    simp only [hmantissa]
    congr 1
    exact (hlast.resolve_left hnormal).symm

theorem abs_signed (s : Sign) (x : ℝ) : |signed s x| = |x| := by
  cases s with
  | positive => rfl
  | negative => exact abs_neg x

/-- What is read back stands for the number that was written, or for an infinity. -/
theorem valueOf_pack (s : Sign) (hm : 0 < m) (h : Canonical m e) :
    valueOf (Float.Model.pack (.finite s m e hm)).unpack =
      some (saturated (signed s (m * 2 ^ e))) := by
  obtain ⟨hbits, hleast, hlast⟩ := (canonical_iff hm).mp h
  have hpos := two_zpow_pos e
  rcases le_or_gt e 971 with he | he
  · have hsmall : (m : ℝ) * 2 ^ e < 2 ^ (1024 : ℤ) := by
      have hbits' : (m : ℝ) < 2 ^ (53 : ℤ) := by exact_mod_cast hbits
      calc (m : ℝ) * 2 ^ e < 2 ^ (53 : ℤ) * 2 ^ e := mul_lt_mul_of_pos_right hbits' hpos
        _ = 2 ^ (53 + e) := (two_zpow_add 53 e).symm
        _ ≤ 2 ^ (1024 : ℤ) := two_zpow_le (by omega)
    rw [unpack_pack_finite hm h he, valueOf, saturated_of_abs_lt]
    rwa [abs_signed, abs_of_pos (mul_two_zpow_pos hm e)]
  · have hlarge : (2 : ℝ) ^ (1024 : ℤ) ≤ m * 2 ^ e := by
      have hnormal : (2 : ℝ) ^ (52 : ℤ) ≤ m := by exact_mod_cast hlast.resolve_right (by omega)
      calc (2 : ℝ) ^ (1024 : ℤ) ≤ 2 ^ (52 + e) := two_zpow_le (by omega)
        _ = 2 ^ (52 : ℤ) * 2 ^ e := two_zpow_add 52 e
        _ ≤ m * 2 ^ e := mul_le_mul_of_nonneg_right hnormal hpos.le
    rw [unpack_pack_overflow hm he]
    cases s with
    | positive => exact congrArg some (if_pos hlarge).symm
    | negative =>
      rw [signed, saturated_neg, saturated, if_pos hlarge]
      rfl

theorem shiftToTargetExponent_eq (hm : 0 < m) (he : e ≤ lastExponent (m * 2 ^ e)) :
    shiftToTargetExponent .binary64 m e .exact =
      (ExtendedMantissa.ofMantissaAndAccuracy m .exact >>> (lastExponent (m * 2 ^ e) - e).toNat,
        lastExponent (m * 2 ^ e)) := by
  rw [shiftToTargetExponent, shiftToExponent, ← lastExponent_eq hm e]
  congr 1
  omega

/-- The mantissa of the rounded number. It may have one bit too many, and then it is a power of
two. -/
theorem rounded_mantissa (hm : 0 < m) (he : e ≤ lastExponent (m * 2 ^ e)) :
    ∃ em, shiftToTargetExponent .binary64 m e .exact = (em, lastExponent (m * 2 ^ e)) ∧
      rounded (m * 2 ^ e) = em.roundedMantissa * 2 ^ lastExponent (m * 2 ^ e) ∧
      em.roundedMantissa ≤ 2 ^ 53 ∧
      (2 ^ 52 ≤ em.roundedMantissa ∨ lastExponent (m * 2 ^ e) = -1074) := by
  have hpos := mul_two_zpow_pos hm e
  refine ⟨_, shiftToTargetExponent_eq hm he, ?_⟩
  generalize hlast : lastExponent (m * 2 ^ e) = t at he ⊢
  have hscaled : (m : ℝ) * 2 ^ (e - t) * 2 ^ t = m * 2 ^ e := by
    rw [mul_assoc, ← two_zpow_add, sub_add_cancel]
  have hshifted : (m : ℝ) * 2 ^ (e - t) * 2 ^ (t - e).toNat = m := by
    apply mul_right_cancel₀ (two_zpow_pos e).ne'
    rw [mul_assoc, ← two_zpow_eq he, hscaled]
  have hnearest := isNearest_shiftRight hshifted
  generalize ExtendedMantissa.roundedMantissa _ = n at hnearest ⊢
  have hrounded : rounded (m * 2 ^ e) = n * 2 ^ t := by
    rw [rounded_eq (hlast.symm ▸ hscaled) hnearest, hlast, Int.cast_natCast]
  have htpos := two_zpow_pos t
  refine ⟨hrounded, ?_, ?_⟩
  · have hle := rounded_le_two_zpow ((m : ℝ) * 2 ^ e)
    rw [hrounded, hlast, two_zpow_add] at hle
    have hle' := le_of_mul_le_mul_right hle htpos
    exact_mod_cast hle'
  · by_cases hleast : t = -1074
    · exact .inr hleast
    · left
      have hle := two_zpow_le_rounded hpos (hlast.trans_ne hleast)
      rw [hrounded, hlast, two_zpow_add] at hle
      have hle' := le_of_mul_le_mul_right hle htpos
      exact_mod_cast hle'

theorem roundWithAccuracy_eq {em : ExtendedMantissa} {d' : ℤ} (hn : 0 < n)
    (hfirst : shiftToTargetExponent .binary64 m e .exact = (em, d))
    (hsecond : shiftToTargetExponent .binary64 em.roundedMantissa d .exact =
      (⟨n, false, false⟩, d')) :
    roundWithAccuracy .binary64 s m e .exact = .finite s n d' hn := by
  rw [roundWithAccuracy, hfirst]
  simp only [hsecond, hn.ne', dif_neg, not_false_eq_true]

/-- A mantissa with enough bits is rounded as the number that it stands for. -/
theorem valueOf_pack_roundWithAccuracy (s : Sign) (hm : 0 < m)
    (he : e ≤ lastExponent (m * 2 ^ e)) :
    valueOf (Float.Model.pack (roundWithAccuracy .binary64 s m e .exact)).unpack =
      some (nearestDouble (signed s (m * 2 ^ e))) := by
  obtain ⟨em, hfirst, hrounded, hbits, hlast⟩ := rounded_mantissa hm he
  rw [nearestDouble, rounded_signed, hrounded]
  have hleast : -1074 ≤ lastExponent (m * 2 ^ e) := le_max_right _ _
  generalize lastExponent (m * 2 ^ e) = d at *
  rcases Nat.eq_zero_or_pos em.roundedMantissa with hzero | hpos
  · have hd : d = -1074 := hlast.resolve_left (by omega)
    have hsecond : shiftToTargetExponent .binary64 em.roundedMantissa d .exact =
        (⟨0, false, false⟩, -1074) := by
      rw [hzero, hd]
      rfl
    have hround : roundWithAccuracy .binary64 s m e .exact = .zero s := by
      rw [roundWithAccuracy, hfirst]
      simp only [hsecond, dif_pos]
    rw [hround, unpack_pack_zero, hzero, Nat.cast_zero, zero_mul, signed_zero, valueOf,
      saturated_eq_zero_iff.mpr rfl]
  · rcases hbits.lt_or_eq with hlt | heq
    · have hcanonical : Canonical em.roundedMantissa d :=
        (canonical_iff hpos).mpr ⟨hlt, hleast, hlast⟩
      have hsecond := shiftToTargetExponent_mul_two_pow hpos hcanonical 0
      rw [pow_zero, Nat.mul_one, Nat.cast_zero, sub_zero] at hsecond
      rw [roundWithAccuracy_eq hpos hfirst hsecond]
      exact valueOf_pack s hpos hcanonical
    · have hcanonical : Canonical (2 ^ 52) (d + 1) :=
        (canonical_iff (by positivity)).mpr ⟨by norm_num, by omega, .inl le_rfl⟩
      have hsecond := shiftToTargetExponent_mul_two_pow (by positivity) hcanonical 1
      rw [Nat.cast_one, add_sub_cancel_right, ← pow_add, ← heq] at hsecond
      rw [roundWithAccuracy_eq (by positivity) hfirst hsecond, valueOf_pack s _ hcanonical, heq]
      congr 3
      rw [zpow_add_one₀ two_ne_zero]
      push_cast
      ring

/-- A mantissa with too few bits is given zeros before it is rounded. -/
theorem valueOf_pack_round (s : Sign) (hm : 0 < m) (e : ℤ) :
    valueOf (Float.Model.pack (UnpackedFloat.round .binary64 s m e)).unpack =
      some (nearestDouble (signed s (m * 2 ^ e))) := by
  rw [UnpackedFloat.round, ← lastExponent_eq hm e, decreaseExponent, Nat.shiftLeft_eq]
  generalize hk : (e - lastExponent (m * 2 ^ e)).toNat = k
  have hsame : ((m * 2 ^ k : ℕ) : ℝ) * 2 ^ (e - k) = m * 2 ^ e := by
    have hpower : (2 : ℝ) ^ e = 2 ^ k * 2 ^ (e - k) := by
      rw [← zpow_natCast, ← two_zpow_add]
      congr 1
      omega
    rw [hpower]
    push_cast
    ring
  rw [← hsame]
  apply valueOf_pack_roundWithAccuracy s (by positivity)
  rw [hsame]
  omega

theorem signed_neg (s : Sign) (x : ℝ) : signed (-s) x = -signed s x := by
  cases s with
  | positive => rfl
  | negative => exact (neg_neg x).symm

theorem apply_eq_signed (s : Sign) (n : ℤ) : (s.apply n : ℝ) = signed s n := by
  cases s with
  | positive => rfl
  | negative => exact Int.cast_neg n

theorem valueOf_pack_normalize (n e : ℤ) :
    valueOf (Float.Model.pack (UnpackedFloat.normalize .binary64 n e .positive)).unpack =
      some (nearestDouble (n * 2 ^ e)) := by
  rcases lt_trichotomy n 0 with hn | rfl | hn
  · have hround : UnpackedFloat.normalize .binary64 n e .positive =
        UnpackedFloat.round .binary64 .negative (-n).toNat e := by
      rw [UnpackedFloat.normalize, compare_lt_iff_lt.mpr hn]
    have hcast : (((-n).toNat : ℕ) : ℝ) = -n := by
      exact_mod_cast Int.toNat_of_nonneg (neg_nonneg.mpr hn.le)
    rw [hround, valueOf_pack_round _ (by omega), hcast, signed, neg_mul, neg_neg]
  · rw [Int.cast_zero, zero_mul, nearestDouble_zero]
    exact congrArg valueOf (unpack_pack_zero .positive)
  · have hround : UnpackedFloat.normalize .binary64 n e .positive =
        UnpackedFloat.round .binary64 .positive n.toNat e := by
      rw [UnpackedFloat.normalize, compare_gt_iff_gt.mpr hn]
    have hcast : ((n.toNat : ℕ) : ℝ) = n := by exact_mod_cast Int.toNat_of_nonneg hn.le
    rw [hround, valueOf_pack_round _ (by omega), hcast, signed]

/-! ## Order -/

theorem mul_two_zpow_lt (hm : 0 < m) (hn : 0 < n) (hme : Canonical m e) (hnd : Canonical n d)
    (h : e < d) : (m : ℝ) * 2 ^ e < n * 2 ^ d := by
  obtain ⟨hbits, hleast, -⟩ := (canonical_iff hm).mp hme
  obtain ⟨-, -, hlast⟩ := (canonical_iff hn).mp hnd
  have hbits' : (m : ℝ) < 2 ^ (53 : ℤ) := by exact_mod_cast hbits
  have hnormal : (2 : ℝ) ^ (52 : ℤ) ≤ n := by exact_mod_cast hlast.resolve_right (by omega)
  calc (m : ℝ) * 2 ^ e < 2 ^ (53 : ℤ) * 2 ^ e := mul_lt_mul_of_pos_right hbits' (two_zpow_pos e)
    _ = 2 ^ (53 + e) := (two_zpow_add 53 e).symm
    _ ≤ 2 ^ (52 + d) := two_zpow_le (by omega)
    _ = 2 ^ (52 : ℤ) * 2 ^ d := two_zpow_add 52 d
    _ ≤ n * 2 ^ d := mul_le_mul_of_nonneg_right hnormal (two_zpow_pos d).le

/-- Exponents are compared first, then mantissas. -/
theorem compares_positive (hm : 0 < m) (hn : 0 < n) (hme : Canonical m e) (hnd : Canonical n d) :
    ((compare e d).then (compare m n)).Compares ((m : ℝ) * 2 ^ e) (n * 2 ^ d) := by
  rcases lt_trichotomy e d with h | rfl | h
  · rw [compare_lt_iff_lt.mpr h]
    exact mul_two_zpow_lt hm hn hme hnd h
  · rw [compare_eq_iff_eq.mpr rfl, Ordering.then]
    rcases lt_trichotomy m n with h | rfl | h
    · rw [compare_lt_iff_lt.mpr h]
      exact mul_lt_mul_of_pos_right (by exact_mod_cast h) (two_zpow_pos e)
    · rw [compare_eq_iff_eq.mpr rfl]
      exact rfl
    · rw [compare_gt_iff_gt.mpr h]
      exact mul_lt_mul_of_pos_right (by exact_mod_cast h) (two_zpow_pos e)
  · rw [compare_gt_iff_gt.mpr h]
    exact mul_two_zpow_lt hn hm hnd hme h

theorem compares_neg {o : Ordering} {x y : ℝ} (h : o.Compares x y) : o.swap.Compares (-x) (-y) := by
  cases o with
  | lt => exact neg_lt_neg h
  | eq => exact congrArg Neg.neg h
  | gt => exact neg_lt_neg h

theorem compares_coe {o : Ordering} {x y : ℝ} (h : o.Compares x y) :
    o.Compares (x : EReal) (y : EReal) := by
  cases o with
  | lt => exact EReal.coe_lt_coe_iff.mpr h
  | eq => exact congrArg Real.toEReal h
  | gt => exact EReal.coe_lt_coe_iff.mpr h

theorem compares_finite {hm : 0 < m} {hn : 0 < n} (hme : Canonical m e) (hnd : Canonical n d)
    (s t : Sign) :
    ∃ o, (UnpackedFloat.finite s m e hm).compare (.finite t n d hn) = some o ∧
      o.Compares (signed s (m * 2 ^ e)) (signed t (n * 2 ^ d)) := by
  have hpos := mul_two_zpow_pos hm e
  have hpos' := mul_two_zpow_pos hn d
  cases s <;> cases t
  · exact ⟨_, rfl, compares_neg (compares_positive hm hn hme hnd)⟩
  · exact ⟨.lt, rfl, (neg_lt_zero.mpr hpos).trans hpos'⟩
  · exact ⟨.gt, rfl, (neg_lt_zero.mpr hpos').trans hpos⟩
  · exact ⟨_, rfl, compares_positive hm hn hme hnd⟩

theorem compares_zero_finite (hm : 0 < m) (s t : Sign) (e : ℤ) :
    ∃ o, (UnpackedFloat.zero t).compare (.finite s m e hm) = some o ∧
      o.Compares (0 : ℝ) (signed s (m * 2 ^ e)) := by
  have hpos := mul_two_zpow_pos hm e
  cases s
  · exact ⟨.gt, rfl, neg_lt_zero.mpr hpos⟩
  · exact ⟨.lt, rfl, hpos⟩

theorem compares_finite_zero (hm : 0 < m) (s t : Sign) (e : ℤ) :
    ∃ o, (UnpackedFloat.finite s m e hm).compare (.zero t) = some o ∧
      o.Compares (signed s (m * 2 ^ e)) (0 : ℝ) := by
  have hpos := mul_two_zpow_pos hm e
  cases s
  · exact ⟨.lt, rfl, neg_lt_zero.mpr hpos⟩
  · exact ⟨.gt, rfl, hpos⟩

/-- What stands for numbers is compared as these are. -/
theorem compares_valueOf (hu : Written u) (hv : Written v) (hp : valueOf u = some p)
    (hq : valueOf v = some q) : ∃ o, u.compare v = some o ∧ o.Compares p q := by
  cases u with
  | notANumber => cases hp
  | infinity s =>
    cases v with
    | notANumber => cases hq
    | infinity t =>
      cases s <;> cases t <;> cases hp <;> cases hq
      · exact ⟨.eq, rfl, rfl⟩
      · exact ⟨.lt, rfl, bot_lt_top⟩
      · exact ⟨.gt, rfl, bot_lt_top⟩
      · exact ⟨.eq, rfl, rfl⟩
    | zero t =>
      cases s <;> cases hp <;> cases hq
      · exact ⟨.lt, rfl, EReal.bot_lt_zero⟩
      · exact ⟨.gt, rfl, EReal.zero_lt_top⟩
    | finite t n d hn =>
      cases s <;> cases hp <;> cases hq
      · exact ⟨.lt, rfl, EReal.bot_lt_coe _⟩
      · exact ⟨.gt, rfl, EReal.coe_lt_top _⟩
  | zero s =>
    cases hp
    cases v with
    | notANumber => cases hq
    | infinity t =>
      cases t <;> cases hq
      · exact ⟨.gt, rfl, EReal.bot_lt_zero⟩
      · exact ⟨.lt, rfl, EReal.zero_lt_top⟩
    | zero t =>
      cases hq
      exact ⟨.eq, rfl, rfl⟩
    | finite t n d hn =>
      cases hq
      obtain ⟨o, ho, hcompares⟩ := compares_zero_finite hn t s d
      exact ⟨o, ho, compares_coe hcompares⟩
  | finite s m e hm =>
    cases hp
    cases v with
    | notANumber => cases hq
    | infinity t =>
      cases t <;> cases hq
      · exact ⟨.gt, by cases s <;> rfl, EReal.bot_lt_coe _⟩
      · exact ⟨.lt, by cases s <;> rfl, EReal.coe_lt_top _⟩
    | zero t =>
      cases hq
      obtain ⟨o, ho, hcompares⟩ := compares_finite_zero hm s t e
      exact ⟨o, ho, compares_coe hcompares⟩
    | finite t n d hn =>
      cases hq
      obtain ⟨o, ho, hcompares⟩ := compares_finite hu hv s t
      exact ⟨o, ho, compares_coe hcompares⟩

end Georeferencing.Double
