import Mathlib
import MooScript.Binary64

/-! Doubles made from a sign and a magnitude: they have that sign and that magnitude, and stand
where both say. -/
namespace MooScript.Binary64

variable {x : Float} {bits : UInt64} {negative : Bool} {m : ℕ}

theorem isNaN_of_isFinite (h : isFinite x = true) : isNaN x = false := by
  rw [isFinite, decide_eq_true_iff] at h
  rw [isNaN, decide_eq_false_iff_not]
  exact Nat.lt_asymm h

theorem toBits_of_ofBits? (h : ofBits? bits = some x) : x.toBits = bits ∧ isFinite x = true := by
  unfold ofBits? at h
  split at h
  next hfinite =>
    cases h
    exact ⟨rfl, decide_eq_true hfinite⟩
  next => cases h

theorem lt_signBit (h : m < infinityMagnitude) : m < signBit := Nat.lt_trans h (by decide)

theorem signed_mod_signBit (negative : Bool) (h : m < signBit) :
    ((if negative then signBit else 0) + m) % signBit = m := by
  split
  next => rw [Nat.add_mod_left, Nat.mod_eq_of_lt h]
  next => rw [Nat.zero_add, Nat.mod_eq_of_lt h]

theorem toBits_ofMagnitude (negative : Bool) (h : m < infinityMagnitude) :
    (ofMagnitude negative m).toBits.toNat = (if negative then signBit else 0) + m := by
  have hlt := lt_signBit h
  have hbits : (UInt64.ofNat ((if negative then signBit else 0) + m)).toNat =
      (if negative then signBit else 0) + m := by
    simp only [signBit, Nat.reduceShiftLeft, UInt64.toNat_ofNat'] at hlt ⊢
    split <;> omega
  have hfinite : (UInt64.ofNat ((if negative then signBit else 0) + m)).toNat % signBit <
      infinityMagnitude := by
    rw [hbits, signed_mod_signBit negative hlt]
    exact h
  obtain ⟨y, hy⟩ : ∃ y, ofBits? (UInt64.ofNat ((if negative then signBit else 0) + m)) = some y :=
    ⟨_, dif_pos hfinite⟩
  simp only [ofMagnitude, hy, Option.getD_some]
  rw [(toBits_of_ofBits? hy).1, hbits]

theorem magnitude_ofMagnitude (negative : Bool) (h : m < infinityMagnitude) :
    magnitude (ofMagnitude negative m) = m := by
  rw [magnitude, toBits_ofMagnitude negative h, signed_mod_signBit negative (lt_signBit h)]

theorem isNegative_ofMagnitude (negative : Bool) (h : m < infinityMagnitude) :
    isNegative (ofMagnitude negative m) = negative := by
  have hlt := lt_signBit h
  rw [isNegative, toBits_ofMagnitude negative h]
  cases negative with
  | true => exact decide_eq_true (Nat.le_add_right signBit m)
  | false => exact decide_eq_false (by simpa using hlt)

theorem isFinite_ofMagnitude (h : m < infinityMagnitude) :
    isFinite (ofMagnitude negative m) = true := by
  rw [isFinite, magnitude_ofMagnitude negative h]
  exact decide_eq_true h

theorem rank_ofMagnitude (negative : Bool) (h : m < infinityMagnitude) :
    rank (ofMagnitude negative m) = if negative then -(m : ℤ) else m := by
  rw [rank, isNegative_ofMagnitude negative h, magnitude_ofMagnitude negative h]

/-- Negation does not go through the filter of infinite results, and need not. -/
theorem isFinite_negate (h : isFinite x = true) : isFinite (negate x) = true := by
  rw [negate, isNaN_of_isFinite h]
  exact isFinite_ofMagnitude (of_decide_eq_true h)

end MooScript.Binary64
