import MooScript.Proofs.Binary64.Packing

/-! Where rounding ends in an infinity: a number is rounded to a finite double if it is less than
half a unit in the last place above the largest of them. -/
namespace MooScript.Binary64

open Float.Model Float.Model.UnpackedFloat

variable {em : ExtendedMantissa} {num den : ℕ}

/-- The mantissa and the two bits behind it are those of `num / den`. -/
def Represents (em : ExtendedMantissa) (num den : ℕ) : Prop :=
  ∃ rest < den, 2 * num = (2 * em.mantissa + em.roundBit.toNat) * den + rest ∧
    (em.stickyBit = true ↔ rest ≠ 0)

theorem represents_exact (m : ℕ) :
    Represents (ExtendedMantissa.ofMantissaAndAccuracy m .exact) m 1 :=
  ⟨0, Nat.one_pos, by
    simp only [ExtendedMantissa.ofMantissaAndAccuracy, Bool.toNat_false]
    omega, by simp [ExtendedMantissa.ofMantissaAndAccuracy]⟩

theorem represents_quotient (num : ℕ) (hden : 0 < den) :
    Represents (ExtendedMantissa.ofMantissaAndAccuracy (num / den)
      (accuracyOfFraction (num % den) den)) num den := by
  have hsplit : num = num / den * den + num % den := by
    rw [Nat.mul_comm]
    exact (Nat.div_add_mod num den).symm
  have hlt : num % den < den := Nat.mod_lt num hden
  generalize num / den = m at *
  generalize num % den = rest at *
  subst hsplit
  unfold accuracyOfFraction
  split
  next hrest =>
    subst hrest
    refine ⟨0, hden, ?_, ?_⟩
    · simp only [ExtendedMantissa.ofMantissaAndAccuracy, Bool.toNat_false]
      ring
    · simp [ExtendedMantissa.ofMantissaAndAccuracy]
  next hrest =>
    cases hcompare : compare (2 * rest) den with
    | lt =>
      have hhalf : 2 * rest < den := Nat.compare_eq_lt.mp hcompare
      refine ⟨2 * rest, hhalf, ?_, ?_⟩
      · simp only [ExtendedMantissa.ofMantissaAndAccuracy, Bool.toNat_false]
        ring
      · simp [ExtendedMantissa.ofMantissaAndAccuracy, hrest]
    | eq =>
      have hhalf : 2 * rest = den := Nat.compare_eq_eq.mp hcompare
      refine ⟨0, hden, ?_, ?_⟩
      · simp only [ExtendedMantissa.ofMantissaAndAccuracy, Bool.toNat_true]
        rw [← hhalf]
        ring
      · simp [ExtendedMantissa.ofMantissaAndAccuracy]
    | gt =>
      have hhalf : den < 2 * rest := Nat.compare_eq_gt.mp hcompare
      refine ⟨2 * rest - den, by omega, ?_, ?_⟩
      · simp only [ExtendedMantissa.ofMantissaAndAccuracy, Bool.toNat_true]
        have : 2 * (m * den + rest) = 2 * m * den + den + (2 * rest - den) := by
          rw [Nat.mul_add, ← Nat.mul_assoc]
          omega
        rw [this]
        ring
      · have hne : 2 * rest - den ≠ 0 := by omega
        simp [ExtendedMantissa.ofMantissaAndAccuracy, hne]

namespace Represents

theorem shiftRightOne (h : Represents em num den) : Represents em.shiftRightOne num (den * 2) := by
  obtain ⟨m, round, sticky⟩ := em
  obtain ⟨rest, hlt, hnum, hsticky⟩ := h
  have hbit : (m % 2 != 0).toNat = m % 2 := by
    rcases Nat.mod_two_eq_zero_or_one m with hm | hm <;> rw [hm] <;> rfl
  have hmantissa : m = 2 * (m / 2) + m % 2 := (Nat.div_add_mod m 2).symm
  dsimp only at hnum hsticky
  refine ⟨round.toNat * den + rest, ?_, ?_, ?_⟩
  · cases round
    · simp only [Bool.toNat_false]
      omega
    · simp only [Bool.toNat_true]
      omega
  · simp only [ExtendedMantissa.shiftRightOne, hbit]
    rw [hnum, ← hmantissa]
    ring
  · simp only [ExtendedMantissa.shiftRightOne, Bool.or_eq_true, hsticky]
    cases round
    · simp
    · simp only [Bool.toNat_true, true_or, true_iff]
      omega

theorem shiftRight (h : Represents em num den) (k : ℕ) :
    Represents (em >>> k) num (den * 2 ^ k) := by
  induction k with
  | zero =>
    rw [pow_zero, mul_one]
    exact h
  | succ k ih =>
    rw [pow_succ, ← mul_assoc]
    exact ih.shiftRightOne

theorem bounds (h : Represents em num den) :
    em.mantissa * den ≤ num ∧ num < (em.mantissa + 1) * den := by
  obtain ⟨rest, hlt, hnum, -⟩ := h
  have hround : em.roundBit.toNat * den ≤ den := by
    cases em.roundBit <;> simp
  have hsplit : 2 * num = 2 * (em.mantissa * den) + em.roundBit.toNat * den + rest := by
    rw [hnum]
    ring
  rw [Nat.add_mul, Nat.one_mul]
  omega

/-- Ties go to the even mantissa, so that half a unit below an even number suffices. -/
theorem le_roundedMantissa_iff (h : Represents em num den) {j : ℕ} (hj : 0 < j) :
    2 * j ≤ em.roundedMantissa ↔ (4 * j - 1) * den ≤ 2 * num := by
  obtain ⟨m, round, sticky⟩ := em
  obtain ⟨rest, hlt, hnum, hsticky⟩ := h
  dsimp only at hnum hsticky
  have hbound {n : ℕ} (hn : 2 * num < (n + 1) * den) (hle : (4 * j - 1) * den ≤ 2 * num) :
      4 * j - 1 ≤ n := by
    have := lt_of_mul_lt_mul_right (lt_of_le_of_lt hle hn) (Nat.zero_le den)
    omega
  have hupper : 2 * num < (2 * m + round.toNat + 1) * den := by
    rw [hnum, Nat.add_mul (2 * m + round.toNat) 1 den]
    omega
  have hlower {n : ℕ} (hn : n ≤ 2 * m + round.toNat) : n * den ≤ 2 * num := by
    rw [hnum]
    exact le_trans (Nat.mul_le_mul_right den hn) (Nat.le_add_right _ _)
  cases round with
  | false =>
    have hrounded : (⟨m, false, sticky⟩ : ExtendedMantissa).roundedMantissa = m := by
      cases sticky <;> rfl
    rw [hrounded]
    simp only [Bool.toNat_false, Nat.add_zero] at *
    constructor
    · intro hle
      exact hlower (by omega)
    · intro hle
      have := hbound hupper hle
      omega
  | true =>
    simp only [Bool.toNat_true] at *
    have hrounded :
        2 * j ≤ (⟨m, true, sticky⟩ : ExtendedMantissa).roundedMantissa ↔ 2 * j ≤ m + 1 := by
      cases sticky with
      | false =>
        change 2 * j ≤ m + m % 2 ↔ _
        omega
      | true => exact Iff.rfl
    rw [hrounded]
    constructor
    · intro hle
      exact hlower (by omega)
    · intro hle
      have := hbound hupper hle
      omega

end Represents

theorem mantissa_shiftRight (em : ExtendedMantissa) (k : ℕ) :
    (em >>> k).mantissa = em.mantissa / 2 ^ k := by
  induction k with
  | zero => exact (Nat.div_one em.mantissa).symm
  | succ k ih =>
    change (em >>> k).mantissa / 2 = _
    rw [ih, Nat.div_div_eq_div_mul, ← pow_succ]

theorem mantissa_ofMantissaAndAccuracy (m : ℕ) (accuracy : Accuracy) :
    (ExtendedMantissa.ofMantissaAndAccuracy m accuracy).mantissa = m := by
  cases accuracy with
  | exact => rfl
  | inexact o => cases o <;> rfl

theorem roundedMantissa_bounds (em : ExtendedMantissa) :
    em.mantissa ≤ em.roundedMantissa ∧ em.roundedMantissa ≤ em.mantissa + 1 := by
  obtain ⟨m, round, sticky⟩ := em
  cases round <;> cases sticky <;>
    simp only [ExtendedMantissa.roundedMantissa, ExtendedMantissa.accuracy,
      Accuracy.roundToNearestEven] <;> omega

theorem targetExponent_binary64 (t : ℤ) :
    Format.binary64.targetExponent t = max (t - 53) (-1074) := by
  simp only [Format.targetExponent, Format.mantissaBits, Format.minExponent]
  norm_num

/-- By how many bits a mantissa is shortened. -/
theorem exists_shift (m : ℕ) (e : ℤ) (accuracy : Accuracy) :
    ∃ k : ℕ, shiftToTargetExponent Format.binary64 m e accuracy =
        (ExtendedMantissa.ofMantissaAndAccuracy m accuracy >>> k, e + k) ∧
      (k : ℤ) = max 0 (max (m.log2 + e - 52) (-1074) - e) := by
  refine ⟨(Format.binary64.targetExponent (totalExponent m e) - e).toNat, rfl, ?_⟩
  rw [targetExponent_binary64, totalExponent]
  omega

/-- A mantissa that has grown out of its bits by rounding is shortened once more. -/
theorem isFinite_roundWithAccuracy {sign : Sign} {m : ℕ} {e e' : ℤ} {accuracy : Accuracy}
    (hfirst : shiftToTargetExponent Format.binary64 m e accuracy = (em, e')) (he' : -1074 ≤ e') :
    isFinite (.ofModel (Float.Model.pack
      (roundWithAccuracy Format.binary64 sign m e accuracy))) = true ↔
      em.roundedMantissa = 0 ∨ e' ≤ 971 ∧ em.roundedMantissa.log2 + e' ≤ 1023 := by
  obtain ⟨k, hlast, hk⟩ := exists_shift em.roundedMantissa e' .exact
  have hmantissa : (ExtendedMantissa.ofMantissaAndAccuracy em.roundedMantissa .exact >>> k).mantissa
      = em.roundedMantissa / 2 ^ k := mantissa_shiftRight _ k
  unfold roundWithAccuracy
  simp only [hfirst, hlast, hmantissa]
  split
  next hzero =>
    refine iff_of_true isFinite_pack_zero (.inl ?_)
    by_contra hne
    have hpow : 2 ^ k ≤ em.roundedMantissa :=
      le_trans (Nat.pow_le_pow_right Nat.two_pos (by omega)) (Nat.log2_self_le hne)
    exact absurd hzero (Nat.div_pos hpow (Nat.two_pow_pos k)).ne'
  next hne =>
    have hrounded : em.roundedMantissa ≠ 0 := by
      intro hzero
      exact hne (by rw [hzero, Nat.zero_div])
    rw [isFinite_pack_finite, or_iff_right hrounded]
    omega

/-- Half a unit in the last place above the largest finite double, in units of which there are
`2 ^ place` in `2 ^ 970`. -/
def overflowBound (place : ℕ) : ℕ := (2 ^ 54 - 1) * 2 ^ place

theorem overflowBound_add (place k : ℕ) :
    overflowBound (place + k) = overflowBound place * 2 ^ k := by
  simp only [overflowBound, pow_add, mul_assoc]

theorem overflowBound_bounds (place : ℕ) :
    2 ^ 53 * 2 ^ place ≤ overflowBound place ∧ overflowBound place ≤ 2 ^ 54 * 2 ^ place :=
  ⟨Nat.mul_le_mul_right _ (by norm_num), Nat.mul_le_mul_right _ (Nat.sub_le _ _)⟩

theorem overflowBound_pos (place : ℕ) : 0 < overflowBound place :=
  lt_of_lt_of_le (Nat.mul_pos (Nat.two_pow_pos 53) (Nat.two_pow_pos place))
    (overflowBound_bounds place).1

theorem two_pow_le_overflowBound {n place : ℕ} (h : n ≤ 53 + place) : 2 ^ n ≤ overflowBound place :=
  calc 2 ^ n ≤ 2 ^ (53 + place) := Nat.pow_le_pow_right Nat.two_pos h
    _ = 2 ^ 53 * 2 ^ place := pow_add 2 53 place
    _ ≤ overflowBound place := (overflowBound_bounds place).1

theorem overflowBound_le_two_pow {n place : ℕ} (h : 54 + place ≤ n) : overflowBound place ≤ 2 ^ n :=
  calc overflowBound place ≤ 2 ^ 54 * 2 ^ place := (overflowBound_bounds place).2
    _ = 2 ^ (54 + place) := (pow_add 2 54 place).symm
    _ ≤ 2 ^ n := Nat.pow_le_pow_right Nat.two_pos h

section

variable {m : ℕ} {e : ℤ} {accuracy : Accuracy}

/-- Numbers of a binary order below that of the bound. -/
theorem isFinite_of_order_lt (sign : Sign)
    (h : Represents (ExtendedMantissa.ofMantissaAndAccuracy m accuracy) num den) (he : e ≤ 970)
    (horder : m.log2 + e < 1023) :
    isFinite (.ofModel (Float.Model.pack
      (roundWithAccuracy Format.binary64 sign m e accuracy))) = true ∧
      num < overflowBound (970 - e).toNat * den := by
  have hhigh : m < 2 ^ (m.log2 + 1) := Nat.lt_log2_self
  constructor
  · obtain ⟨k, hfirst, hk⟩ := exists_shift m e accuracy
    have hrounded :=
      (roundedMantissa_bounds (ExtendedMantissa.ofMantissaAndAccuracy m accuracy >>> k)).2
    rw [mantissa_shiftRight, mantissa_ofMantissaAndAccuracy] at hrounded
    rw [isFinite_roundWithAccuracy hfirst (by omega)]
    generalize (ExtendedMantissa.ofMantissaAndAccuracy m accuracy >>> k).roundedMantissa =
      rounded at *
    have hdiv : m / 2 ^ k < 2 ^ 53 := by
      rw [Nat.div_lt_iff_lt_mul (Nat.two_pow_pos k), ← pow_add]
      exact lt_of_lt_of_le hhigh (Nat.pow_le_pow_right Nat.two_pos (by omega))
    have hlast : rounded.log2 < 54 := by
      rcases Nat.eq_zero_or_pos rounded with hzero | hpos
      · rw [hzero, Nat.log2_zero]
        decide
      · rw [Nat.log2_lt hpos.ne']
        omega
    exact .inr ⟨by omega, by omega⟩
  · have hnum := h.bounds.2
    rw [mantissa_ofMantissaAndAccuracy] at hnum
    have hsum : m.log2 + 1 ≤ 53 + (970 - e).toNat := by omega
    generalize (970 - e).toNat = place at *
    calc num < (m + 1) * den := hnum
      _ ≤ 2 ^ (m.log2 + 1) * den := Nat.mul_le_mul_right den hhigh
      _ ≤ overflowBound place * den := Nat.mul_le_mul_right den (two_pow_le_overflowBound hsum)

/-- Numbers of the binary order of the bound: the last bit kept is that of the largest doubles. -/
theorem isFinite_of_order_eq (sign : Sign)
    (h : Represents (ExtendedMantissa.ofMantissaAndAccuracy m accuracy) num den) (he : e ≤ 970)
    (horder : m.log2 + e = 1023) :
    isFinite (.ofModel (Float.Model.pack
      (roundWithAccuracy Format.binary64 sign m e accuracy))) = true ↔
      num < overflowBound (970 - e).toNat * den := by
  obtain ⟨k, hfirst, hk⟩ := exists_shift m e accuracy
  have hhalf := (h.shiftRight k).le_roundedMantissa_iff (Nat.two_pow_pos 52)
  rw [isFinite_roundWithAccuracy hfirst (by omega)]
  generalize (ExtendedMantissa.ofMantissaAndAccuracy m accuracy >>> k).roundedMantissa =
    rounded at *
  have hplace : k = (970 - e).toNat + 1 := by omega
  have hodd : 4 * 2 ^ 52 - 1 = 2 ^ 54 - 1 := by norm_num
  have hbound (odd : ℕ) :
      odd * (den * 2 ^ k) = 2 * (odd * 2 ^ (970 - e).toNat * den) := by
    rw [hplace, pow_succ]
    ring
  have hdouble : 2 * 2 ^ 52 = 2 ^ 53 := rfl
  rw [hodd, hbound, Nat.mul_le_mul_left_iff Nat.two_pos, hdouble] at hhalf
  rw [overflowBound, ← not_le, ← hhalf, not_le]
  rcases Nat.eq_zero_or_pos rounded with hzero | hpos
  · rw [hzero]
    exact iff_of_true (.inl rfl) (Nat.two_pow_pos 53)
  · rw [← Nat.log2_lt hpos.ne', or_iff_right hpos.ne']
    omega

/-- Numbers of a binary order above that of the bound. -/
theorem not_isFinite_of_order_gt (sign : Sign)
    (h : Represents (ExtendedMantissa.ofMantissaAndAccuracy m accuracy) num den) (hm : m ≠ 0)
    (he : e ≤ 970) (horder : 1023 < m.log2 + e) :
    ¬ isFinite (.ofModel (Float.Model.pack
      (roundWithAccuracy Format.binary64 sign m e accuracy))) = true ∧
      overflowBound (970 - e).toNat * den ≤ num := by
  have hlow : 2 ^ m.log2 ≤ m := Nat.log2_self_le hm
  constructor
  · obtain ⟨k, hfirst, hk⟩ := exists_shift m e accuracy
    have hrounded :=
      (roundedMantissa_bounds (ExtendedMantissa.ofMantissaAndAccuracy m accuracy >>> k)).1
    rw [mantissa_shiftRight, mantissa_ofMantissaAndAccuracy] at hrounded
    rw [isFinite_roundWithAccuracy hfirst (by omega)]
    have hdiv : 2 ^ 52 ≤ m / 2 ^ k := by
      rw [Nat.le_div_iff_mul_le (Nat.two_pow_pos k), ← pow_add]
      exact le_trans (Nat.pow_le_pow_right Nat.two_pos (by omega)) hlow
    omega
  · have hnum := h.bounds.1
    rw [mantissa_ofMantissaAndAccuracy] at hnum
    have hsum : 54 + (970 - e).toNat ≤ m.log2 := by omega
    generalize (970 - e).toNat = place at *
    calc overflowBound place * den ≤ 2 ^ m.log2 * den :=
          Nat.mul_le_mul_right den (overflowBound_le_two_pow hsum)
      _ ≤ m * den := Nat.mul_le_mul_right den hlow
      _ ≤ num := hnum

/-- The number `num / den * 2 ^ e` is rounded to a finite double if it is less than half a unit in
the last place above the largest of these. -/
theorem isFinite_roundWithAccuracy_iff (sign : Sign)
    (h : Represents (ExtendedMantissa.ofMantissaAndAccuracy m accuracy) num den) (he : e ≤ 970) :
    isFinite (.ofModel (Float.Model.pack
      (roundWithAccuracy Format.binary64 sign m e accuracy))) = true ↔
      num < overflowBound (970 - e).toNat * den := by
  rcases lt_trichotomy (m.log2 + e) 1023 with horder | horder | horder
  · exact iff_of_true (isFinite_of_order_lt sign h he horder).1
      (isFinite_of_order_lt sign h he horder).2
  · exact isFinite_of_order_eq sign h he horder
  · have hne : m ≠ 0 := by
      rintro rfl
      rw [Nat.log2_zero] at horder
      omega
    obtain ⟨hinfinite, hnum⟩ := not_isFinite_of_order_gt sign h hne he horder
    exact iff_of_false hinfinite (not_lt.mpr hnum)

end

/-- What is rounded and not finite is infinite. -/
theorem pack_roundWithAccuracy (sign : Sign) (m : ℕ) (e : ℤ) (accuracy : Accuracy) :
    isFinite (.ofModel (Float.Model.pack
        (roundWithAccuracy Format.binary64 sign m e accuracy))) = true ∨
      Float.Model.pack (roundWithAccuracy Format.binary64 sign m e accuracy) =
        Float.Model.pack (.infinity sign) := by
  unfold roundWithAccuracy
  dsimp only
  split
  next => exact .inl isFinite_pack_zero
  next =>
    rw [isFinite_pack_finite]
    exact (le_or_gt _ _).imp_right (pack_finite_of_lt _)

/-- A mantissa of just the right size stays as it is. -/
theorem roundWithAccuracy_exact {sign : Sign} {m : ℕ} {e : ℤ} (hm : 2 ^ 52 ≤ m) (hm' : m < 2 ^ 53)
    (he : -1074 ≤ e) :
    roundWithAccuracy Format.binary64 sign m e .exact =
      .finite sign m e (lt_of_lt_of_le (Nat.two_pow_pos 52) hm) := by
  have hm0 : m ≠ 0 := (lt_of_lt_of_le (Nat.two_pow_pos 52) hm).ne'
  have hlog : m.log2 = 52 := (Nat.log2_eq_iff hm0).mpr ⟨hm, hm'⟩
  have hshift : shiftToTargetExponent Format.binary64 m e .exact = (⟨m, false, false⟩, e) := by
    obtain ⟨k, hfirst, hk⟩ := exists_shift m e .exact
    obtain rfl : k = 0 := by omega
    rw [hfirst, Int.natCast_zero, Int.add_zero]
    rfl
  have hrounded : (⟨m, false, false⟩ : ExtendedMantissa).roundedMantissa = m := rfl
  unfold roundWithAccuracy
  simp only [hshift, hrounded, dif_neg hm0]

theorem isFinite_mul_iff {m m' : ℕ} {e e' : ℤ} {hm : 0 < m} {hm' : 0 < m'} (he : e + e' ≤ 970) :
    isFinite (.ofModel (Float.Model.pack (UnpackedFloat.mul Format.binary64
      (.finite .positive m e hm) (.finite .positive m' e' hm')))) = true ↔
      m * m' < overflowBound (970 - (e + e')).toNat := by
  have hiff :=
    isFinite_roundWithAccuracy_iff (.positive * .positive) (represents_exact (m * m')) he
  rwa [Nat.mul_one] at hiff

/-- By how many bits a dividend is lengthened. -/
theorem exists_divCore (m : ℕ) (e : ℤ) (m' : ℕ) (e' : ℤ) :
    ∃ k : ℕ, divCore Format.binary64 m e m' e' =
        (m <<< k / m', e - e' - k, accuracyOfFraction (m <<< k % m') m') ∧
      (k : ℤ) = max 0 (e - e' - max (m.log2 + e - (m'.log2 + e') - 53) (-1074)) := by
  refine ⟨(e - e' - min (e - e') (Format.binary64.targetExponent
    (totalExponent m e - totalExponent m' e'))).toNat, ?_, ?_⟩
  · unfold divCore
    refine Prod.ext rfl (Prod.ext ?_ rfl)
    dsimp only
    omega
  · rw [targetExponent_binary64, totalExponent, totalExponent]
    omega

theorem isFinite_div_iff {m m' : ℕ} {e e' : ℤ} {hm : 0 < m} {hm' : 0 < m'} (he : e - e' ≤ 970) :
    isFinite (.ofModel (Float.Model.pack (UnpackedFloat.div Format.binary64
      (.finite .positive m e hm) (.finite .positive m' e' hm')))) = true ↔
      m < overflowBound (970 - (e - e')).toNat * m' := by
  obtain ⟨k, hdiv, hk⟩ := exists_divCore m e m' e'
  have hlow : e - e' - k ≤ 970 := by omega
  have hiff := isFinite_roundWithAccuracy_iff (.positive / .positive)
    (represents_quotient (m <<< k) hm') hlow
  have hplace : (970 - (e - e' - k)).toNat = (970 - (e - e')).toNat + k := by omega
  rw [hplace, Nat.shiftLeft_eq, overflowBound_add, mul_right_comm,
    Nat.mul_lt_mul_right (Nat.two_pow_pos k)] at hiff
  rw [← hiff, UnpackedFloat.div]
  simp only [hdiv, Nat.shiftLeft_eq]

end MooScript.Binary64
