import Mathlib
import MooScript.Binary64

/-! How doubles lie in their bit patterns, and which patterns are finite. -/
namespace MooScript.Binary64

open Float.Model Float.Model.UnpackedFloat

theorem toNat_packComponents (sign : Sign) (exponent : BitVec 11) (mantissa : BitVec 52) :
    (packComponents Format.binary64 sign exponent mantissa).toNat =
      (sign.toBitVec.toNat * 2 ^ 11 + exponent.toNat) * 2 ^ 52 + mantissa.toNat := by
  change (sign.toBitVec ++ exponent ++ mantissa).toNat = _
  rw [BitVec.toNat_append, BitVec.toNat_append, ← Nat.shiftLeft_add_eq_or_of_lt mantissa.isLt,
    ← Nat.shiftLeft_add_eq_or_of_lt exponent.isLt, Nat.shiftLeft_eq, Nat.shiftLeft_eq]

/-- A pattern is finite when not all bits of its exponent are set. -/
theorem isFinite_packComponents {sign : Sign} {exponent : BitVec 11} {mantissa : BitVec 52}
    {model : Float.Model}
    (h : model.toBits.toBitVec = packComponents Format.binary64 sign exponent mantissa) :
    isFinite (.ofModel model) = true ↔ exponent.toNat < 2047 := by
  have hexponent : exponent.toNat < 2 ^ 11 := exponent.isLt
  have hmantissa : mantissa.toNat < 2 ^ 52 := mantissa.isLt
  have hmagnitude : magnitude (.ofModel model) = exponent.toNat * 2 ^ 52 + mantissa.toNat := by
    change model.toBits.toBitVec.toNat % 2 ^ 63 = _
    rw [h, toNat_packComponents]
    omega
  have hinf : infinityMagnitude = 2047 * 2 ^ 52 := rfl
  rw [isFinite, hmagnitude, hinf, decide_eq_true_iff]
  omega

theorem exponentBias_binary64 : (Format.binary64.exponentBias : ℤ) = 1023 := by
  decide

theorem pack_finite_of_lt {sign : Sign} {m : ℕ} {e : ℤ} (hm : 0 < m) (he : 971 < e) :
    Float.Model.pack (.finite sign m e hm) = Float.Model.pack (.infinity sign) := by
  have hlarge : 2 ^ 11 ≤ (e + Format.binary64.exponentBias + 52).toNat + 1 := by
    rw [exponentBias_binary64]
    omega
  have hbits : UnpackedFloat.pack Format.binary64 (.finite sign m e hm) =
      UnpackedFloat.pack Format.binary64 (.infinity sign) := if_pos hlarge
  simp only [Float.Model.pack, hbits]

theorem pack_finite_of_le (sign : Sign) {m : ℕ} {e : ℤ} (hm : 0 < m) (he : e ≤ 971) :
    (Float.Model.pack (.finite sign m e hm)).toBits.toBitVec =
      packComponents Format.binary64 sign
        (if m.log2 = 52 then BitVec.ofNat 11 (e + 1075).toNat else 0#11) (BitVec.ofNat 52 m) := by
  have hsmall : ¬ 2 ^ 11 ≤ (e + Format.binary64.exponentBias + 52).toNat + 1 := by
    rw [exponentBias_binary64]
    omega
  by_cases hlog : m.log2 = 52
  · have hbits : m.log2 + 1 = Format.binary64.mantissaBits := by rw [hlog]; rfl
    have hbiased : e + Format.binary64.exponentBias + 52 = e + 1075 := by
      rw [exponentBias_binary64]
      omega
    rw [if_pos hlog, ← hbiased]
    exact (if_neg hsmall).trans (if_pos hbits)
  · have hbits : ¬ m.log2 + 1 = Format.binary64.mantissaBits := fun h =>
      hlog (Nat.add_right_cancel h)
    rw [if_neg hlog]
    exact (if_neg hsmall).trans (if_neg hbits)

/-- Where the exponents of finite doubles end. -/
theorem isFinite_pack_finite {sign : Sign} {m : ℕ} {e : ℤ} (hm : 0 < m) :
    isFinite (.ofModel (Float.Model.pack (.finite sign m e hm))) = true ↔ e ≤ 971 := by
  by_cases he : e ≤ 971
  · refine iff_of_true ((isFinite_packComponents (pack_finite_of_le sign hm he)).mpr ?_) he
    split
    next =>
      rw [BitVec.toNat_ofNat]
      omega
    next => decide
  · have hpack : (Float.Model.pack (.infinity sign)).toBits.toBitVec =
        packComponents Format.binary64 sign (-1#11) 0 := rfl
    rw [pack_finite_of_lt hm (not_le.mp he), isFinite_packComponents hpack]
    exact iff_of_false (by decide) he

theorem isFinite_pack_zero {sign : Sign} :
    isFinite (.ofModel (Float.Model.pack (.zero sign))) = true := by
  cases sign <;> decide

theorem isFinite_pack_infinity (sign : Sign) :
    isFinite (.ofModel (Float.Model.pack (.infinity sign))) = false := by
  cases sign <;> decide

theorem unpackSign_packComponents (sign : Sign) (exponent : BitVec 11) (mantissa : BitVec 52) :
    unpackSign (packComponents Format.binary64 sign exponent mantissa) = sign.toBitVec := by
  have hexponent : exponent.toNat < 2 ^ 11 := exponent.isLt
  have hmantissa : mantissa.toNat < 2 ^ 52 := mantissa.isLt
  have hsign : sign.toBitVec.toNat < 2 := sign.toBitVec.isLt
  have hnat : (unpackSign (packComponents Format.binary64 sign exponent mantissa)).toNat =
      (packComponents Format.binary64 sign exponent mantissa).toNat / 2 ^ 63 % 2 := by
    rw [unpackSign, BitVec.toNat_cast, BitVec.extractLsb_toNat, Nat.shiftRight_eq_div_pow]
    rfl
  apply BitVec.eq_of_toNat_eq
  rw [hnat, toNat_packComponents]
  omega

/-- A mantissa with all its bits is unpacked as it was packed. -/
theorem unpack_pack {sign : Sign} {m : ℕ} {e : ℤ} (hm : 2 ^ 52 ≤ m) (hm' : m < 2 ^ 53)
    (he : -1074 ≤ e) (he' : e ≤ 971) (hpos : 0 < m) :
    (Float.Model.pack (.finite sign m e hpos)).unpack = .finite sign m e hpos := by
  have hlog : m.log2 = 52 := (Nat.log2_eq_iff hpos.ne').mpr ⟨hm, hm'⟩
  have hpack := pack_finite_of_le sign hpos he'
  rw [if_pos hlog] at hpack
  have hexponent : (BitVec.ofNat 11 (e + 1075).toNat).toNat = (e + 1075).toNat := by
    rw [BitVec.toNat_ofNat]
    omega
  have hmantissa : (1#1 ++ BitVec.ofNat 52 m).toNat = m := by
    rw [BitVec.toNat_append, ← Nat.shiftLeft_add_eq_or_of_lt (BitVec.isLt _), Nat.shiftLeft_eq,
      BitVec.toNat_ofNat]
    change 1 * 2 ^ 52 + m % 2 ^ 52 = m
    omega
  have hsign : Sign.ofBitVec sign.toBitVec = sign := by
    cases sign <;> rfl
  rw [Float.Model.unpack, hpack, UnpackedFloat.unpack]
  simp only [unpackMantissa_packComponents, unpackExponent_packComponents,
    unpackSign_packComponents, hsign]
  generalize BitVec.ofNat 11 (e + 1075).toNat = exponent at *
  rw [if_neg, if_neg]
  · simp only [hmantissa, hexponent]
    congr
    rw [exponentBias_binary64]
    omega
  · rintro rfl
    change 0 = _ at hexponent
    omega
  · rintro rfl
    change 2047 = _ at hexponent
    omega

end MooScript.Binary64
