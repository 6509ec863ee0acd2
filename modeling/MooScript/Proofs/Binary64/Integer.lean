import MooScript.Proofs.Binary64.Magnitude

/-! Integers as doubles. Rounding keeps their order, but not strictly: from 2 ^ 53 on different
integers may become one double. -/
namespace MooScript.Binary64

variable {n n' k : ℕ}

theorem halved_eq (n k : ℕ) : halved n k =
    if 2 ^ k < 2 * (n % 2 ^ k) ∨ 2 ^ k = 2 * (n % 2 ^ k) ∧ n / 2 ^ k % 2 = 1 then n / 2 ^ k + 1
    else n / 2 ^ k := by
  simp only [halved, Nat.one_shiftLeft]

theorem halved_zero (n : ℕ) : halved n 0 = n := by
  rw [halved_eq, pow_zero, Nat.mod_one, Nat.div_one, if_neg (by omega)]

theorem halved_bounds (n k : ℕ) : n / 2 ^ k ≤ halved n k ∧ halved n k ≤ n / 2 ^ k + 1 := by
  rw [halved_eq]
  split <;> omega

/-- Of two numbers in one unit the larger leaves more, so it is not the one rounded down. -/
theorem halved_mono (h : n ≤ n') (k : ℕ) : halved n k ≤ halved n' k := by
  have hdiv : n / 2 ^ k ≤ n' / 2 ^ k := Nat.div_le_div_right h
  by_cases heq : n / 2 ^ k = n' / 2 ^ k
  · have hmod : n % 2 ^ k ≤ n' % 2 ^ k := by
      have hn := Nat.div_add_mod n (2 ^ k)
      have hn' := Nat.div_add_mod n' (2 ^ k)
      rw [← heq] at hn'
      omega
    rw [halved_eq, halved_eq, heq]
    split <;> split <;> omega
  · have hlow := (halved_bounds n k).2
    have hhigh := (halved_bounds n' k).1
    omega

/-- The magnitude of the double nearest to a natural number. -/
def magnitudeOfNat (n : ℕ) : ℕ :=
  magnitudeOfScaled (halved n (n.log2 - 52)) (n.log2 - 52 : ℕ)

/-- The number rounded to 53 bits, from the leading one on. -/
def leading (n : ℕ) : ℕ := halved n (n.log2 - 52) * 2 ^ (52 - n.log2)

theorem leading_bounds (hn : n ≠ 0) : 2 ^ 52 ≤ leading n ∧ leading n ≤ 2 ^ 53 := by
  have hlow := Nat.log2_self_le hn
  have hhigh : n < 2 ^ (n.log2 + 1) := Nat.lt_log2_self
  rw [leading]
  generalize n.log2 = e at hlow hhigh
  by_cases he : e ≤ 52
  · obtain ⟨d, hd⟩ := Nat.exists_eq_add_of_le he
    have hdrop : e - 52 = 0 := by omega
    have hscale : 52 - e = d := by omega
    rw [hdrop, hscale, halved_zero, hd, pow_add]
    have hsucc : 2 ^ 53 = 2 ^ (e + 1) * 2 ^ d := by
      rw [← pow_add]
      congr 1
      omega
    rw [hsucc]
    exact ⟨Nat.mul_le_mul_right _ hlow, Nat.mul_le_mul_right _ hhigh.le⟩
  · obtain ⟨d, rfl⟩ := Nat.exists_eq_add_of_le (Nat.le_of_not_le he)
    have hdrop : 52 + d - 52 = d := by omega
    have hscale : 52 - (52 + d) = 0 := by omega
    obtain ⟨hge, hle⟩ := halved_bounds n d
    have hdiv : 2 ^ 52 ≤ n / 2 ^ d := by
      rw [Nat.le_div_iff_mul_le (by positivity), ← pow_add]
      exact hlow
    have hdiv' : n / 2 ^ d < 2 ^ 53 := by
      rw [Nat.div_lt_iff_lt_mul (by positivity), ← pow_add]
      rwa [show 53 + d = 52 + d + 1 by omega]
    rw [hdrop, hscale, pow_zero, mul_one]
    omega

theorem halved_ne_zero (hn : n ≠ 0) : halved n (n.log2 - 52) ≠ 0 := by
  intro hzero
  have hge := (leading_bounds hn).1
  rw [leading, hzero, Nat.zero_mul] at hge
  omega

/-- What is shifted out when rounding needs no shift back. -/
theorem scale_eq (hn : n ≠ 0) : 52 - (halved n (n.log2 - 52)).log2 = 52 - n.log2 := by
  by_cases he : n.log2 ≤ 52
  · rw [Nat.sub_eq_zero_of_le he, halved_zero]
  · have hge := (leading_bounds hn).1
    rw [leading, Nat.sub_eq_zero_of_le (Nat.le_of_not_le he), pow_zero, mul_one] at hge
    have hlog := (Nat.le_log2 (halved_ne_zero hn)).mpr hge
    omega

/-- The exponent counts from that of 1, which is 1023. A carry out of the mantissa adds one to
it. -/
theorem magnitudeOfNat_eq (hn : n ≠ 0) :
    magnitudeOfNat n = (1022 + n.log2) * 2 ^ 52 + leading n := by
  have hshift : min (52 - (halved n (n.log2 - 52)).log2)
      (((n.log2 - 52 : ℕ) : ℤ) + 1074).toNat = 52 - n.log2 := by
    rw [scale_eq hn]
    omega
  have hexponent : (((n.log2 - 52 : ℕ) : ℤ) + 1074 - (52 - n.log2 : ℕ)).toNat = 1022 + n.log2 := by
    omega
  rw [magnitudeOfNat, magnitudeOfScaled, if_neg (halved_ne_zero hn)]
  simp only [hshift, hexponent, leadingBit, Nat.shiftLeft_eq, one_mul, leading]

theorem magnitudeOfNat_zero : magnitudeOfNat 0 = 0 := by decide

theorem magnitudeOfNat_pos (hn : n ≠ 0) : 0 < magnitudeOfNat n := by
  rw [magnitudeOfNat_eq hn]
  have := (leading_bounds hn).1
  omega

theorem leading_mono (h : n ≤ n') (hlog : n.log2 = n'.log2) : leading n ≤ leading n' := by
  rw [leading, leading, hlog]
  exact Nat.mul_le_mul_right _ (halved_mono h _)

theorem log2_mono (h : n ≤ n') : n.log2 ≤ n'.log2 := by
  by_cases hn : n = 0
  · rw [hn, Nat.log2_zero]
    exact Nat.zero_le _
  · exact (Nat.le_log2 (by omega)).mpr ((Nat.log2_self_le hn).trans h)

/-- A number of more digits comes after all of fewer, also after one that is rounded up. -/
theorem magnitudeOfNat_mono (h : n ≤ n') : magnitudeOfNat n ≤ magnitudeOfNat n' := by
  by_cases hn : n = 0
  · rw [hn, magnitudeOfNat_zero]
    exact Nat.zero_le _
  · have hn' : n' ≠ 0 := by omega
    rw [magnitudeOfNat_eq hn, magnitudeOfNat_eq hn']
    rcases (log2_mono h).eq_or_lt with hlog | hlog
    · have hle := leading_mono h hlog
      rw [hlog]
      omega
    · have hlow := (leading_bounds hn).2
      have hhigh := (leading_bounds hn').1
      omega

/-- Below 2 ^ 53 nothing is rounded. -/
theorem magnitudeOfNat_lt (hn : n < 2 ^ 53) (h : n < n') :
    magnitudeOfNat n < magnitudeOfNat n' := by
  have hn' : n' ≠ 0 := by omega
  by_cases hzero : n = 0
  · rw [hzero, magnitudeOfNat_zero]
    exact magnitudeOfNat_pos hn'
  · have hexact : n.log2 ≤ 52 := Nat.lt_succ_iff.mp ((Nat.log2_lt hzero).mpr hn)
    have hleading : leading n = n * 2 ^ (52 - n.log2) := by
      rw [leading, Nat.sub_eq_zero_of_le hexact, halved_zero]
    rw [magnitudeOfNat_eq hzero, magnitudeOfNat_eq hn']
    rcases (log2_mono h.le).eq_or_lt with hlog | hlog
    · have hlt : leading n < leading n' := by
        rw [hleading, leading, ← hlog, Nat.sub_eq_zero_of_le hexact, halved_zero]
        exact Nat.mul_lt_mul_of_pos_right h (by positivity)
      rw [hlog]
      omega
    · have hlow : leading n < 2 ^ 53 := by
        have hlt : n < 2 ^ (n.log2 + 1) := Nat.lt_log2_self
        have hpow : 2 ^ 53 = 2 ^ (n.log2 + 1) * 2 ^ (52 - n.log2) := by
          rw [← pow_add]
          congr 1
          omega
        rw [hleading, hpow]
        exact Nat.mul_lt_mul_of_pos_right hlt (by positivity)
      have hhigh := (leading_bounds hn').1
      omega

theorem magnitudeOfNat_lt_infinity (hn : n ≤ 2 ^ 63) : magnitudeOfNat n < infinityMagnitude := by
  refine (magnitudeOfNat_mono hn).trans_lt ?_
  decide

/-- An integer on the line of doubles, at the double it is rounded to. -/
def rankOfInt (n : ℤ) : ℤ :=
  if n < 0 then -(magnitudeOfNat n.natAbs : ℤ) else magnitudeOfNat n.natAbs

section

variable {m n : ℤ}

theorem rankOfInt_mono (h : m ≤ n) : rankOfInt m ≤ rankOfInt n := by
  unfold rankOfInt
  by_cases hm : m < 0
  · by_cases hn : n < 0
    · have hle := magnitudeOfNat_mono (show n.natAbs ≤ m.natAbs by omega)
      rw [if_pos hm, if_pos hn]
      omega
    · rw [if_pos hm, if_neg hn]
      omega
  · have hn : ¬ n < 0 := by omega
    have hle := magnitudeOfNat_mono (show m.natAbs ≤ n.natAbs by omega)
    rw [if_neg hm, if_neg hn]
    omega

/-- Different integers that become one double are both beyond those that doubles hold exactly. -/
theorem le_natAbs_of_rankOfInt_eq (h : m < n) (heq : rankOfInt m = rankOfInt n) :
    2 ^ 53 ≤ m.natAbs ∧ 2 ^ 53 ≤ n.natAbs := by
  unfold rankOfInt at heq
  by_cases hm : m < 0
  · by_cases hn : n < 0
    · rw [if_pos hm, if_pos hn] at heq
      have hlarge : 2 ^ 53 ≤ n.natAbs := by
        by_contra hsmall
        have hlt := magnitudeOfNat_lt (not_le.mp hsmall) (show n.natAbs < m.natAbs by omega)
        omega
      omega
    · rw [if_pos hm, if_neg hn] at heq
      have hpos := magnitudeOfNat_pos (show m.natAbs ≠ 0 by omega)
      omega
  · have hn : ¬ n < 0 := by omega
    rw [if_neg hm, if_neg hn] at heq
    have hlarge : 2 ^ 53 ≤ m.natAbs := by
      by_contra hsmall
      have hlt := magnitudeOfNat_lt (not_le.mp hsmall) (show m.natAbs < n.natAbs by omega)
      omega
    omega

end

theorem ofInt64_eq (n : Int64) :
    ofInt64 n = ofMagnitude (decide (n.toInt < 0)) (magnitudeOfNat n.toInt.natAbs) := by
  simp only [ofInt64, magnitudeOfNat, Int64.lt_iff_toInt_lt, Int64.toInt_zero]

theorem magnitudeOfNat_toInt_lt (n : Int64) :
    magnitudeOfNat n.toInt.natAbs < infinityMagnitude := by
  have hlow := n.le_toInt
  have hhigh := n.toInt_lt
  exact magnitudeOfNat_lt_infinity (by omega)

theorem isFinite_ofInt64 (n : Int64) : isFinite (ofInt64 n) = true := by
  rw [ofInt64_eq]
  exact isFinite_ofMagnitude (magnitudeOfNat_toInt_lt n)

theorem rank_ofInt64 (n : Int64) : rank (ofInt64 n) = rankOfInt n.toInt := by
  simp only [ofInt64_eq, rank_ofMagnitude _ (magnitudeOfNat_toInt_lt n), decide_eq_true_eq,
    rankOfInt]

end MooScript.Binary64
