import MooScript.Decimal.Reader
import MooScript.Proofs.Binary64.Rounding

/-! Which decimal numbers have a finite double nearest to them. -/
namespace MooScript

open Float.Model Float.Model.UnpackedFloat

namespace Binary64

/-- Positive doubles with an exponent between -52 and `top`. -/
def isWholeUpTo (top : ℤ) : UnpackedFloat → Bool
  | .finite .positive m e _ => decide (m < 2 ^ 53) && decide (-52 ≤ e) && decide (e ≤ top)
  | _ => false

theorem isWholeUpTo_iff {top : ℤ} {x : UnpackedFloat} :
    isWholeUpTo top x = true ↔
      ∃ m e hm, x = .finite .positive m e hm ∧ m < 2 ^ 53 ∧ -52 ≤ e ∧ e ≤ top := by
  constructor
  · intro h
    unfold isWholeUpTo at h
    split at h
    next m e hm =>
      simp only [Bool.and_eq_true, decide_eq_true_iff] at h
      obtain ⟨⟨hmax, hlow⟩, hhigh⟩ := h
      exact ⟨m, e, hm, rfl, hmax, hlow, hhigh⟩
    next => cases h
  · rintro ⟨m, e, hm, rfl, hmax, hlow, hhigh⟩
    simp only [isWholeUpTo, hmax, hlow, hhigh, decide_true, Bool.and_self]

theorem isWholeUpTo_powerOfTen (n : ℕ) (hn : n < Float.exactlyRepresentablePowersOfTen.size) :
    isWholeUpTo 21 Float.exactlyRepresentablePowersOfTen[n].toModel.unpack = true := by
  have hall : Float.exactlyRepresentablePowersOfTen.all
      (fun power => isWholeUpTo 21 power.toModel.unpack) = true := by
    decide +kernel
  exact Array.all_eq_true.mp hall n hn

theorem shiftLeft_bounds {n : ℕ} (hn : n < 2 ^ 53) (hpos : 0 < n) :
    2 ^ 52 ≤ n <<< (52 - n.log2) ∧ n <<< (52 - n.log2) < 2 ^ 53 := by
  have hlog : n.log2 < 53 := (Nat.log2_lt hpos.ne').mpr hn
  have hsum : n.log2 + (52 - n.log2) = 52 := by omega
  rw [Nat.shiftLeft_eq]
  constructor
  · calc 2 ^ 52 = 2 ^ n.log2 * 2 ^ (52 - n.log2) := by rw [← pow_add, hsum]
      _ ≤ n * 2 ^ (52 - n.log2) := Nat.mul_le_mul_right _ (Nat.log2_self_le hpos.ne')
  · calc n * 2 ^ (52 - n.log2) < 2 ^ (n.log2 + 1) * 2 ^ (52 - n.log2) :=
          Nat.mul_lt_mul_of_pos_right Nat.lt_log2_self (Nat.two_pow_pos _)
      _ = 2 ^ 53 := by rw [← pow_add, Nat.add_right_comm, hsum]

/-- A number of 53 bits is a double. -/
theorem ofUInt64_eq {n : UInt64} (hn : n.toNat < 2 ^ 53) (hpos : 0 < n.toNat) :
    UnpackedFloat.ofUInt64 Format.binary64 n =
      .finite .positive (n.toNat <<< (52 - n.toNat.log2)) (-(52 - n.toNat.log2 : ℕ))
        (lt_of_lt_of_le (Nat.two_pow_pos 52) (shiftLeft_bounds hn hpos).1) := by
  have hlog : n.toNat.log2 < 53 := (Nat.log2_lt hpos.ne').mpr hn
  obtain ⟨hmin, hmax⟩ := shiftLeft_bounds hn hpos
  have hcompare : compare (n.toNat : ℤ) 0 = .gt := compare_gt_iff_gt.mpr (by omega)
  have hshift : (0 - Format.binary64.targetExponent (totalExponent n.toNat 0)).toNat =
      52 - n.toNat.log2 := by
    rw [targetExponent_binary64, totalExponent]
    omega
  unfold UnpackedFloat.ofUInt64 UnpackedFloat.ofNat UnpackedFloat.ofInt UnpackedFloat.normalize
  rw [hcompare]
  change roundWithAccuracy Format.binary64 .positive
    (n.toNat <<< (0 - Format.binary64.targetExponent (totalExponent n.toNat 0)).toNat)
    (0 - (0 - Format.binary64.targetExponent (totalExponent n.toNat 0)).toNat) .exact = _
  rw [hshift, zero_sub, roundWithAccuracy_exact hmin hmax (by omega)]

theorem isWholeUpTo_toFloat {n : ℕ} (hn : n < 2 ^ 53) (hpos : 0 < n) :
    isWholeUpTo 0 n.toUInt64.toFloat.toModel.unpack = true := by
  have hnat : n.toUInt64.toNat = n := by
    change n % 2 ^ 64 = n
    omega
  have hn' : n.toUInt64.toNat < 2 ^ 53 := by rwa [hnat]
  have hpos' : 0 < n.toUInt64.toNat := by rwa [hnat]
  obtain ⟨hmin, hmax⟩ := shiftLeft_bounds hn' hpos'
  change isWholeUpTo 0 (Float.Model.pack (UnpackedFloat.ofUInt64 Format.binary64 _)).unpack = true
  rw [ofUInt64_eq hn' hpos', unpack_pack hmin hmax (by omega) (by omega)]
  exact isWholeUpTo_iff.mpr ⟨_, _, _, rfl, hmax, by omega, by omega⟩

theorem toFloat_zero : (0 : ℕ).toUInt64.toFloat.toModel.unpack = .zero .positive := by
  rfl

variable {x y : Float}

theorem isFinite_mul_of_whole (hx : isWholeUpTo 0 x.toModel.unpack = true)
    (hy : isWholeUpTo 21 y.toModel.unpack = true) : isFinite (x * y) = true := by
  obtain ⟨m, e, hm, hmodel, hmax, -, he⟩ := isWholeUpTo_iff.mp hx
  obtain ⟨m', e', hm', hmodel', hmax', -, he'⟩ := isWholeUpTo_iff.mp hy
  change isFinite (.ofModel (Float.Model.pack
    (UnpackedFloat.mul Format.binary64 x.toModel.unpack y.toModel.unpack))) = true
  rw [hmodel, hmodel', isFinite_mul_iff (by omega)]
  calc m * m' < 2 ^ 53 * 2 ^ 53 := Nat.mul_lt_mul'' hmax hmax'
    _ = 2 ^ (53 + 53) := (pow_add 2 53 53).symm
    _ ≤ overflowBound (970 - (e + e')).toNat := two_pow_le_overflowBound (by omega)

theorem isFinite_div_of_whole (hx : isWholeUpTo 0 x.toModel.unpack = true)
    (hy : isWholeUpTo 21 y.toModel.unpack = true) : isFinite (x / y) = true := by
  obtain ⟨m, e, hm, hmodel, hmax, -, he⟩ := isWholeUpTo_iff.mp hx
  obtain ⟨m', e', hm', hmodel', -, hlow', -⟩ := isWholeUpTo_iff.mp hy
  change isFinite (.ofModel (Float.Model.pack
    (UnpackedFloat.div Format.binary64 x.toModel.unpack y.toModel.unpack))) = true
  rw [hmodel, hmodel', isFinite_div_iff (by omega)]
  calc m < 2 ^ 53 := hmax
    _ ≤ overflowBound (970 - (e - e')).toNat := two_pow_le_overflowBound (Nat.le_add_right _ _)
    _ ≤ overflowBound (970 - (e - e')).toNat * m' := Nat.le_mul_of_pos_right _ hm'

theorem isFinite_ofScientific_nonneg {m : ℕ} (n : ℕ) (hm : m ≠ 0) :
    isFinite (.ofModel (Float.Model.ofScientific m n)) = true ↔ m * 10 ^ n < overflowBound 970 := by
  have hpos : 0 < m := Nat.pos_of_ne_zero hm
  unfold Float.Model.ofScientific UnpackedFloat.ofScientific
  rw [dif_neg hm]
  split
  next hlarge =>
    have hn : 54 + 970 ≤ n := by
      change (2048 : ℤ) < n at hlarge
      omega
    rw [isFinite_pack_infinity]
    refine iff_of_false Bool.false_ne_true (not_lt.mpr ?_)
    calc overflowBound 970 ≤ 2 ^ n := overflowBound_le_two_pow hn
      _ ≤ 10 ^ n := Nat.pow_le_pow_left (by decide) n
      _ ≤ m * 10 ^ n := Nat.le_mul_of_pos_left _ hpos
  next =>
    have hnonneg : (0 : ℤ) ≤ n := Int.natCast_nonneg n
    have hsmall : ¬ (n : ℤ) < -((2 ^ Format.binary64.exponentBits : ℤ) + m.log2) := by
      change ¬ (n : ℤ) < -(2048 + m.log2)
      omega
    have hplace : (970 - (-(Format.binary64.mantissaBits : ℤ) + 0)).toNat =
        970 + Format.binary64.mantissaBits := by decide
    rw [if_neg hsmall, if_pos hnonneg, isFinite_mul_iff (by decide), hplace,
      overflowBound_add, Nat.shiftLeft_eq, Int.toNat_natCast, mul_right_comm,
      Nat.mul_lt_mul_right (Nat.two_pow_pos _)]

theorem isFinite_ofScientific_neg {m n : ℕ} (hm : m ≠ 0) (hn : 0 < n) :
    isFinite (.ofModel (Float.Model.ofScientific m (-n))) = true ↔
      m < overflowBound 970 * 10 ^ n := by
  unfold Float.Model.ofScientific UnpackedFloat.ofScientific
  have hlarge : ¬ (-n : ℤ) > 2 ^ Format.binary64.exponentBits := by
    change ¬ (2048 : ℤ) < -n
    omega
  rw [dif_neg hm, if_neg hlarge]
  split
  next hsmall =>
    have hlog : m.log2 + 1 ≤ n := by
      change (-n : ℤ) < -(2048 + m.log2) at hsmall
      omega
    refine iff_of_true isFinite_pack_zero ?_
    calc m < 2 ^ (m.log2 + 1) := Nat.lt_log2_self
      _ ≤ 2 ^ n := Nat.pow_le_pow_right Nat.two_pos hlog
      _ ≤ 10 ^ n := Nat.pow_le_pow_left (by decide) n
      _ ≤ overflowBound 970 * 10 ^ n := Nat.le_mul_of_pos_left _ (overflowBound_pos 970)
  next =>
    have hneg : ¬ (0 : ℤ) ≤ -n := by omega
    rw [if_neg hneg, isFinite_div_iff (by omega), Int.neg_neg, Int.toNat_natCast,
      sub_self, sub_zero]
    exact Iff.rfl

/-- What is not finite is infinite, and never negative or not a number. -/
theorem pack_ofScientific (m : ℕ) (e : ℤ) :
    isFinite (.ofModel (Float.Model.ofScientific m e)) = true ∨
      Float.Model.ofScientific m e = Float.Model.pack (.infinity .positive) := by
  unfold Float.Model.ofScientific UnpackedFloat.ofScientific
  split
  next => exact .inl isFinite_pack_zero
  next =>
    split
    next => exact .inr rfl
    next =>
      split
      next => exact .inl isFinite_pack_zero
      next =>
        split
        next => exact pack_roundWithAccuracy _ _ _ _
        next => exact pack_roundWithAccuracy _ _ _ _

/-- The shortcut for few digits and small exponents stays far below the bound. -/
theorem isFinite_shortcut {digits size : ℕ} (hdigits : digits < 2 ^ 53)
    (hsize : size < Float.exactlyRepresentablePowersOfTen.size) :
    isFinite (digits.toUInt64.toFloat * Float.exactlyRepresentablePowersOfTen[size]) = true ∧
      isFinite (digits.toUInt64.toFloat / Float.exactlyRepresentablePowersOfTen[size]) = true := by
  have hpower := isWholeUpTo_powerOfTen size hsize
  generalize Float.exactlyRepresentablePowersOfTen[size] = power at *
  rcases Nat.eq_zero_or_pos digits with rfl | hpos
  · obtain ⟨m, e, hm, hmodel, -⟩ := isWholeUpTo_iff.mp hpower
    change isFinite (.ofModel (Float.Model.pack (UnpackedFloat.mul Format.binary64
        (0 : ℕ).toUInt64.toFloat.toModel.unpack power.toModel.unpack))) = true ∧
      isFinite (.ofModel (Float.Model.pack (UnpackedFloat.div Format.binary64
        (0 : ℕ).toUInt64.toFloat.toModel.unpack power.toModel.unpack))) = true
    rw [toFloat_zero, hmodel]
    exact ⟨isFinite_pack_zero, isFinite_pack_zero⟩
  · have hwhole := isWholeUpTo_toFloat hdigits hpos
    exact ⟨isFinite_mul_of_whole hwhole hpower, isFinite_div_of_whole hwhole hpower⟩

end Binary64

namespace Decimal
open Binary64

/-- The number itself. -/
def toRat (d : Decimal) : ℚ := d.digits * 10 ^ d.exponent

theorem toRat_lt_iff {digits size bound : ℕ} :
    (toRat ⟨digits, size⟩ < bound ↔ digits * 10 ^ size < bound) ∧
      (toRat ⟨digits, -size⟩ < bound ↔ digits < bound * 10 ^ size) := by
  constructor
  · rw [toRat, zpow_natCast]
    exact_mod_cast Iff.rfl
  · rw [toRat, zpow_neg, zpow_natCast, ← div_eq_mul_inv, div_lt_iff₀ (by positivity)]
    exact_mod_cast Iff.rfl

theorem isFinite_ofModel {d : Decimal} :
    isFinite (.ofModel (Float.Model.ofScientific d.digits d.exponent)) = true ↔
      d.toRat < overflowBound 970 := by
  obtain ⟨digits, exponent⟩ := d
  dsimp only
  by_cases hzero : digits = 0
  · have hbound : (0 : ℚ) < overflowBound 970 := by exact_mod_cast overflowBound_pos 970
    subst hzero
    refine iff_of_true isFinite_pack_zero ?_
    rwa [toRat, Nat.cast_zero, zero_mul]
  · obtain ⟨size, rfl | rfl⟩ := Int.eq_nat_or_neg exponent
    · rw [isFinite_ofScientific_nonneg size hzero, toRat_lt_iff.1]
    · rcases Nat.eq_zero_or_pos size with rfl | hsize
      · rw [Int.natCast_zero, Int.neg_zero, ← Int.natCast_zero,
          isFinite_ofScientific_nonneg 0 hzero, toRat_lt_iff.1]
      · rw [isFinite_ofScientific_neg hzero hsize, toRat_lt_iff.2]

theorem toRat_lt_of_short {d : Decimal} (hdigits : d.digits < 2 ^ 53)
    (hexponent : d.exponent.natAbs ≤ 22) : d.toRat < overflowBound 970 := by
  obtain ⟨digits, exponent⟩ := d
  have hbound : 2 ^ (53 + 74) ≤ overflowBound 970 := two_pow_le_overflowBound (by decide)
  generalize overflowBound 970 = bound at *
  dsimp only at hdigits hexponent
  obtain ⟨size, rfl | rfl⟩ := Int.eq_nat_or_neg exponent
  · rw [toRat_lt_iff.1]
    calc digits * 10 ^ size ≤ digits * 10 ^ 22 :=
          Nat.mul_le_mul_left _ (Nat.pow_le_pow_right (by decide) (by omega))
      _ < 2 ^ 53 * 10 ^ 22 := Nat.mul_lt_mul_of_pos_right hdigits (by positivity)
      _ ≤ 2 ^ (53 + 74) := by norm_num
      _ ≤ bound := hbound
  · rw [toRat_lt_iff.2]
    calc digits < 2 ^ 53 := hdigits
      _ ≤ 2 ^ (53 + 74) := Nat.pow_le_pow_right Nat.two_pos (by decide)
      _ ≤ bound := hbound
      _ ≤ bound * 10 ^ size := Nat.le_mul_of_pos_right _ (by positivity)

/-- The nearest double to a decimal number is finite or infinite, and finite if the number is less
than half a unit in the last place above the largest finite double. -/
theorem isFinite_nearest (d : Decimal) :
    (isFinite (nearest d.digits d.exponent) = true ↔ d.toRat < overflowBound 970) ∧
      (isFinite (nearest d.digits d.exponent) = true ∨
        nearest d.digits d.exponent = infinity false) := by
  unfold nearest Float.ofScientific
  split
  next hfast =>
    obtain ⟨hdigits, hexponent⟩ := hfast
    have hsize : d.exponent.natAbs < Float.exactlyRepresentablePowersOfTen.size :=
      Nat.lt_succ_of_le hexponent
    obtain ⟨hmul, hdiv⟩ := isFinite_shortcut hdigits hsize
    dsimp only
    split
    next => exact ⟨iff_of_true hdiv (toRat_lt_of_short hdigits hexponent), .inl hdiv⟩
    next => exact ⟨iff_of_true hmul (toRat_lt_of_short hdigits hexponent), .inl hmul⟩
  next =>
    have hexponent : (if decide (d.exponent < 0) then Int.negOfNat d.exponent.natAbs
        else Int.ofNat d.exponent.natAbs) = d.exponent := by
      by_cases hneg : d.exponent < 0
      · rw [if_pos (decide_eq_true hneg), Int.negOfNat_eq]
        exact (Int.eq_neg_of_eq_neg (Int.ofNat_natAbs_of_nonpos hneg.le)).symm
      · rw [if_neg (by simpa using hneg)]
        exact Int.natAbs_of_nonneg (not_lt.mp hneg)
    dsimp only
    rw [hexponent]
    refine ⟨isFinite_ofModel, (pack_ofScientific d.digits d.exponent).imp_right fun h => ?_⟩
    rw [h]
    rfl

end Decimal
end MooScript
