import MooScript.Syntax.Literal

/-! Digits read back. -/
namespace MooScript

namespace Decimal

theorem toList_toString (n : Nat) : (toString n).toList = Nat.toDigits 10 n := by
  rw [Nat.toString_eq_ofList_toDigits, String.toList_ofList]

theorem digitsValue_toString (n : Nat) : digitsValue (toString n).toList = n := by
  rw [toList_toString, digitsValue, ← Nat.ofDigitChars_eq_foldl]
  exact Nat.ofDigitChars_ten_toDigits

/-- A digit is no sign. -/
theorem splitSign_cons {c : Char} (h : c.isDigit = true) (cs : List Char) :
    splitSign (c :: cs) = (false, c :: cs) := by
  unfold splitSign
  split
  · rename_i heq
    cases heq
    exact absurd h (by decide)
  · rename_i heq
    cases heq
    exact absurd h (by decide)
  · rfl

theorem splitSign_eq_self {cs : List Char} (h : ∀ c ∈ cs, c.isDigit = true) :
    splitSign cs = (false, cs) := by
  cases cs with
  | nil => rfl
  | cons c cs => exact splitSign_cons (h c List.mem_cons_self) cs

/-- Digits without a sign are read as the number that they denote. -/
theorem readInteger?_of_digits {s : String} (hne : s.toList ≠ [])
    (hdigits : ∀ c ∈ s.toList, c.isDigit = true) :
    readInteger? s = some (digitsValue s.toList : Int) := by
  have hall : s.toList.all Char.isDigit = true := List.all_eq_true.mpr hdigits
  have hempty : s.toList.isEmpty = false := List.isEmpty_eq_false_iff.mpr hne
  simp only [readInteger?, splitSign_eq_self hdigits, hempty, hall, Bool.not_true, Bool.or_self,
    Bool.false_eq_true, if_false]

theorem readInteger?_toString (n : Nat) : readInteger? (toString n) = some (n : Int) := by
  have hlist := toList_toString n
  rw [readInteger?_of_digits, digitsValue_toString]
  · exact hlist ▸ Nat.toDigits_ne_nil
  · intro c hc
    rw [hlist] at hc
    exact Nat.isDigit_of_mem_toDigits (by decide) (by decide) hc

end Decimal

theorem Word.int32?_toInt (id : Int32) : Word.int32? id.toInt = some id := by
  rw [int32?, if_pos ⟨id.minValue_le_toInt, id.toInt_le⟩, Int32.ofInt_toInt]

theorem Word.int64?_eq_some_iff {n : Int} {m : Int64} : int64? n = some m ↔ m.toInt = n := by
  constructor
  · intro h
    obtain ⟨⟨hlow, hhigh⟩, h⟩ := Option.ite_none_right_eq_some.mp h
    rw [← Option.some.inj h]
    exact Int64.toInt_ofInt_of_le hlow (Int.lt_add_one_of_le hhigh)
  · rintro rfl
    rw [int64?, if_pos ⟨m.minValue_le_toInt, m.toInt_le⟩, Int64.ofInt_toInt]

theorem Word.int32?_eq_some_iff {n : Int} {m : Int32} : int32? n = some m ↔ m.toInt = n := by
  constructor
  · intro h
    obtain ⟨⟨hlow, hhigh⟩, h⟩ := Option.ite_none_right_eq_some.mp h
    rw [← Option.some.inj h]
    exact Int32.toInt_ofInt_of_le hlow (Int.lt_add_one_of_le hhigh)
  · rintro rfl
    exact int32?_toInt m

/-- The negation of a number that is not negative fits as well. -/
theorem Word.toInt_neg_of_nonneg {n : Int64} (h : 0 ≤ n.toInt) : (-n).toInt = -n.toInt := by
  have hhigh := n.toInt_lt
  rw [Int64.toInt_neg, Int.bmod_eq_of_le] <;> omega

/-- The number of an object, without its sign, is one of 64 bits. -/
theorem Decimal.readInt64?_natAbs (id : Int32) :
    readInt64? (toString id.toInt.natAbs) = some (Int64.ofInt id.toInt.natAbs) ∧
      (Int64.ofInt id.toInt.natAbs).toInt = id.toInt.natAbs := by
  have hlo : -2147483648 ≤ id.toInt := id.le_toInt
  have hhi : id.toInt < 2147483648 := id.toInt_lt
  have hmin : Int64.minValue.toInt = -9223372036854775808 := by decide
  have hmax : Int64.maxValue.toInt = 9223372036854775807 := by decide
  constructor
  · rw [readInt64?, readInteger?_toString, Option.bind_some, Word.int64?, hmin, hmax,
      if_pos (by omega)]
  · exact Int64.toInt_ofInt_of_le (by omega) (by omega)

/-- Of a negative number the sign is a token of its own. -/
theorem Syntax.objectId?_of_text {t : Token} {id : ObjectId}
    (h : t.text = toString id.toInt.natAbs) :
    objectId? (decide (id.toInt < 0)) t = some id := by
  obtain ⟨hread, hvalue⟩ := Decimal.readInt64?_natAbs id
  have hsigned : (if decide (id.toInt < 0) then -Int64.ofInt id.toInt.natAbs
      else Int64.ofInt id.toInt.natAbs).toInt = id.toInt := by
    by_cases hneg : id.toInt < 0
    · rw [if_pos (decide_eq_true hneg), Word.toInt_neg_of_nonneg (by omega), hvalue]
      omega
    · rw [if_neg (by simpa using hneg), hvalue]
      omega
  rw [objectId?, h, hread]
  exact (congrArg Word.int32? hsigned).trans (Word.int32?_toInt id)

end MooScript
