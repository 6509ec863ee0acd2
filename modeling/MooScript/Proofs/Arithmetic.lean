import Mathlib
import MooScript.Value.Operation

/-! Arithmetic of integers: exact up to multiples of 2 ^ 64, and division that fits together with
its remainder. -/
namespace MooScript

variable (a b : Int64)

namespace Word

/-- Of all quotients only that of the least word by -1 is too large for a word. -/
theorem div_cases :
    (a = Int64.minValue ∧ b = -1 ∧ a / b = Int64.minValue) ∨
      (¬ (a = Int64.minValue ∧ b = -1) ∧ (a / b).toInt = a.toInt.tdiv b.toInt) := by
  by_cases ha : a = Int64.minValue
  · by_cases hb : b = -1
    · left
      rw [ha, hb]
      exact ⟨rfl, rfl, Int64.minValue_div_neg_one⟩
    · exact .inr ⟨fun h => hb h.2, Int64.toInt_div_of_ne_right a b hb⟩
  · exact .inr ⟨fun h => ha h.1, Int64.toInt_div_of_ne_left a b ha⟩

/-- Where the quotient wraps around, the product with the divisor wraps back. -/
theorem div_mul_add_mod : a / b * b + a % b = a := by
  rw [← Int64.toInt_inj]
  calc (a / b * b + a % b).toInt
      = (a.toInt.tdiv b.toInt * b.toInt + a.toInt.tmod b.toInt).bmod (2 ^ 64) := by
        rw [Int64.toInt_add, Int64.toInt_mul, Int64.toInt_div, Int64.toInt_mod, Int.bmod_mul_bmod,
          Int.bmod_add_bmod]
    _ = a.toInt.bmod (2 ^ 64) := by
        rw [Int.mul_comm, Int.mul_tdiv_add_tmod]
    _ = a.toInt := Int64.toInt_bmod a

theorem sign_mod : (a % b).toInt = 0 ∨ (a % b).toInt.sign = a.toInt.sign := by
  rw [Int64.toInt_mod, ← Int.sign_eq_zero_iff_zero, Int.sign_tmod]
  split
  · exact .inl rfl
  · exact .inr rfl

theorem abs_mod_lt {b : Int64} (hb : b ≠ 0) : |(a % b).toInt| < |b.toInt| := by
  have hne : b.toInt ≠ 0 := fun h => hb (Int64.toInt_inj.mp (h.trans Int64.toInt_zero.symm))
  have hpos : 0 < b.toInt.natAbs := Int.natAbs_pos.mpr hne
  rw [Int.abs_eq_natAbs, Int.abs_eq_natAbs, Int64.toInt_mod, Int.natAbs_tmod]
  exact_mod_cast Nat.mod_lt _ hpos

end Word

namespace Value

/-- An integer that differs from the exact result by a multiple of 2 ^ 64. -/
def IsModulo (value : Value) (exact : Int) : Prop :=
  ∃ n : Int64, value = .integer n ∧ n.toInt ≡ exact [ZMOD 2 ^ 64]

theorem isModulo_of_bmod {n : Int64} {exact : Int} (h : n.toInt = exact.bmod (2 ^ 64)) :
    (integer n).IsModulo exact := by
  refine ⟨n, rfl, ?_⟩
  rw [h, Int.ModEq]
  exact_mod_cast Int.bmod_emod

theorem div_integers {b : Int64} (hb : b ≠ 0) :
    applyBinary .div (integer a) (integer b) = integer (a / b) :=
  if_neg fun hzero => hb (beq_iff_eq.mp hzero)

theorem rem_integers {b : Int64} (hb : b ≠ 0) :
    applyBinary .rem (integer a) (integer b) = integer (a % b) :=
  if_neg fun hzero => hb (beq_iff_eq.mp hzero)

/-- What the operators make of two integers. -/
structure IntegerLaws (a b : Int64) : Prop where
  add : (applyBinary .add (integer a) (integer b)).IsModulo (a.toInt + b.toInt)
  sub : (applyBinary .sub (integer a) (integer b)).IsModulo (a.toInt - b.toInt)
  mul : (applyBinary .mul (integer a) (integer b)).IsModulo (a.toInt * b.toInt)
  neg : (applyUnary .neg (integer a)).IsModulo (-a.toInt)
  by_zero : b = 0 → applyBinary .div (integer a) (integer b) = .error .div ∧
    applyBinary .rem (integer a) (integer b) = .error .div
  /-- A quotient is cut off toward zero; the only one that is too large is the dividend again. -/
  quotient : b ≠ 0 → ∃ q : Int64, applyBinary .div (integer a) (integer b) = integer q ∧
    if a = Int64.minValue ∧ b = -1 then q = Int64.minValue
    else q.toInt = a.toInt.tdiv b.toInt
  remainder : b ≠ 0 → ∃ r : Int64, applyBinary .rem (integer a) (integer b) = integer r ∧
    (r.toInt = 0 ∨ r.toInt.sign = a.toInt.sign) ∧ |r.toInt| < |b.toInt|
  /-- The quotient times the divisor, and the remainder, make up what was divided. -/
  restored : b ≠ 0 → applyBinary .eq (applyBinary .add
      (applyBinary .mul (applyBinary .div (integer a) (integer b)) (integer b))
      (applyBinary .rem (integer a) (integer b))) (integer a) = boolean true

theorem integer_laws : IntegerLaws a b where
  add := isModulo_of_bmod (Int64.toInt_add a b)
  sub := isModulo_of_bmod (Int64.toInt_sub a b)
  mul := isModulo_of_bmod (Int64.toInt_mul a b)
  neg := isModulo_of_bmod (Int64.toInt_neg a)
  by_zero hb := by
    subst hb
    exact ⟨rfl, rfl⟩
  quotient hb := by
    refine ⟨a / b, div_integers a hb, ?_⟩
    obtain ⟨ha, hb, hdiv⟩ | ⟨hfits, hdiv⟩ := Word.div_cases a b
    · rw [if_pos ⟨ha, hb⟩]
      exact hdiv
    · rw [if_neg hfits]
      exact hdiv
  remainder hb :=
    ⟨a % b, rem_integers a hb, Word.sign_mod a b, Word.abs_mod_lt a hb⟩
  restored hb := by
    have hsum : applyBinary .add (applyBinary .mul (integer (a / b)) (integer b))
        (integer (a % b)) = integer a := congrArg integer (Word.div_mul_add_mod a b)
    rw [div_integers a hb, rem_integers a hb, hsum]
    exact congrArg boolean (beq_self_eq_true a)

/-- The quotient that is too large, and one of different signs, restored. -/
theorem integer_laws_restored :
    (∃ q, applyBinary .div (integer Int64.minValue) (integer (-1)) = integer q ∧
      q = Int64.minValue) ∧
    (∃ r : Int64, applyBinary .rem (integer (-7)) (integer 2) = integer r ∧
      (r.toInt = 0 ∨ r.toInt.sign = -1) ∧ |r.toInt| < 2) ∧
    applyBinary .eq (applyBinary .add
        (applyBinary .mul (applyBinary .div (integer (-7)) (integer 2)) (integer 2))
        (applyBinary .rem (integer (-7)) (integer 2))) (integer (-7)) = boolean true := by
  refine ⟨?_, (integer_laws (-7) 2).remainder (by decide),
    (integer_laws (-7) 2).restored (by decide)⟩
  obtain ⟨q, hdiv, hq⟩ := (integer_laws Int64.minValue (-1)).quotient (by decide)
  rw [if_pos ⟨rfl, rfl⟩] at hq
  exact ⟨q, hdiv, hq⟩

end Value
end MooScript
