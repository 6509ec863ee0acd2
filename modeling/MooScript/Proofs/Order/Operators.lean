import MooScript.Proofs.Order.Comparison
import MooScript.Proofs.Order.Text

/-! The comparison operators. What the four of them say of two values, and what equality says of
them, all comes from their one order; that of texts goes by code points. -/
namespace MooScript

namespace Ordinal

variable {x y : Ordinal}

theorem position_inj (h : x.kind = y.kind) : x.position = y.position ↔ x = y := by
  cases x with
  | boolean a =>
    cases y with
    | boolean b => cases a <;> cases b <;> simp [position]
    | _ => cases h
  | character c =>
    cases y with
    | character d => simp [position, Char.toNat_inj]
    | _ => cases h
  | integer m =>
    cases y with
    | integer n => simp [position, Int64.toInt_inj]
    | _ => cases h
  | object i =>
    cases y with
    | object j => simp [position, Int32.toInt_inj]
    | _ => cases h

theorem equal_toValue (x y : Ordinal) : x.toValue.equal y.toValue = true ↔ x = y := by
  cases x <;> cases y <;> simp [toValue, Value.equal]

end Ordinal

/-- The operators that go by the order of values. -/
def BinaryOp.comparisons : List BinaryOp := [.lt, .le, .gt, .ge]

namespace Value

variable {a b : Value} {o : Ordering} {holds : Ordering → Bool}

theorem ordered_of_some (h : a.compare? b = some o) : ordered holds a b = boolean (holds o) := by
  rw [ordered, h]

theorem ordered_of_none (h : a.compare? b = none) : ordered holds a b = .error .type := by
  rw [ordered, h]

theorem kind_eq_of_equal (h : a.equal b = true) : a.kind = b.kind := by
  unfold equal at h
  split at h <;> first | rfl | cases h

/-- Where values of one kind have an order, they are equal when they are level in it. -/
theorem equal_iff_of_compare? (hkind : a.kind = b.kind) (h : a.compare? b = some o) :
    a.equal b = true ↔ o = .eq := by
  rcases (comparable_of_compare? h).cases with ⟨x, y, rfl, rfl⟩ | ⟨x, y, hordinal, rfl, rfl⟩ |
    ⟨s, t, rfl, rfl⟩
  · rw [compare?_number] at h
    cases x with
    | integer m =>
      cases y with
      | integer n =>
        cases h
        simp [Number.toValue, equal, Int64.toInt_inj]
      | float d => cases hkind
    | float d =>
      cases y with
      | integer n => cases hkind
      | float e =>
        change Binary64.compare? d e = some o at h
        simp [Number.toValue, equal, h]
  · rw [compare?_ordinal, Ordinal.compare?_of_kind hordinal] at h
    cases h
    rw [Ordinal.equal_toValue, compare_eq_iff_eq, Ordinal.position_inj hordinal]
  · cases h
    simp [equal]

/-- What the operators say of two values. -/
structure Coherent (a b : Value) : Prop where
  /-- All comparisons are type errors, which is when there is no order, or all are booleans. -/
  uniform : (a.compare? b = none ∧ ∀ op ∈ BinaryOp.comparisons, a.applyBinary op b = .error .type) ∨
    (a.compare? b ≠ none ∧
      ∀ op ∈ BinaryOp.comparisons, ∃ holds, a.applyBinary op b = boolean holds)
  lt_eq_gt : a.applyBinary .lt b = b.applyBinary .gt a
  le_eq_ge : a.applyBinary .le b = b.applyBinary .ge a
  le_eq_not_gt : ∀ holds, a.applyBinary .gt b = boolean holds →
    a.applyBinary .le b = boolean (!holds)
  ge_eq_not_lt : ∀ holds, a.applyBinary .lt b = boolean holds →
    a.applyBinary .ge b = boolean (!holds)
  /-- Of two values with an order one is less or they are level, and just one of these. -/
  trichotomy : a.compare? b ≠ none →
    (a.applyBinary .lt b = boolean true ∧ a.applyBinary .gt b = boolean false ∧
      a.compare? b ≠ some .eq) ∨
    (a.applyBinary .lt b = boolean false ∧ a.applyBinary .gt b = boolean true ∧
      a.compare? b ≠ some .eq) ∨
    (a.applyBinary .lt b = boolean false ∧ a.applyBinary .gt b = boolean false ∧
      a.compare? b = some .eq)
  /-- Equal values are level, or have no order. -/
  level_of_eq : a.applyBinary .eq b = boolean true →
    (a.applyBinary .le b = boolean true ∧ a.applyBinary .ge b = boolean true) ∨
    ∀ op ∈ BinaryOp.comparisons, a.applyBinary op b = .error .type
  /-- Level values are equal if they are of one kind. -/
  eq_iff_level : a.kind = b.kind → a.compare? b ≠ none →
    (a.applyBinary .eq b = boolean true ↔
      a.applyBinary .lt b = boolean false ∧ a.applyBinary .gt b = boolean false)

theorem coherent_of_none (h : a.compare? b = none) : Coherent a b := by
  have hswap : b.compare? a = none := by rw [compare?_swap, h, Option.map_none]
  have herrors : ∀ op ∈ BinaryOp.comparisons, a.applyBinary op b = .error .type := by
    simp only [BinaryOp.comparisons, List.forall_mem_cons]
    exact ⟨ordered_of_none h, ordered_of_none h, ordered_of_none h, ordered_of_none h,
      List.forall_mem_nil _⟩
  constructor
  case uniform => exact .inl ⟨h, herrors⟩
  case lt_eq_gt => exact (ordered_of_none h).trans (ordered_of_none hswap).symm
  case le_eq_ge => exact (ordered_of_none h).trans (ordered_of_none hswap).symm
  case le_eq_not_gt =>
    intro holds hgt
    rw [herrors .gt (by simp [BinaryOp.comparisons])] at hgt
    cases hgt
  case ge_eq_not_lt =>
    intro holds hlt
    rw [herrors .lt (by simp [BinaryOp.comparisons])] at hlt
    cases hlt
  case trichotomy => exact fun hsome => absurd h hsome
  case level_of_eq => exact fun _ => .inr herrors
  case eq_iff_level => exact fun _ hsome => absurd h hsome

theorem coherent_of_some (h : a.compare? b = some o) : Coherent a b := by
  have hswap : b.compare? a = some o.swap := by rw [compare?_swap, h, Option.map_some]
  have hlt : a.applyBinary .lt b = boolean o.isLT := ordered_of_some h
  have hle : a.applyBinary .le b = boolean o.isLE := ordered_of_some h
  have hgt : a.applyBinary .gt b = boolean o.isGT := ordered_of_some h
  have hge : a.applyBinary .ge b = boolean o.isGE := ordered_of_some h
  have hsome : a.compare? b ≠ none := by simp [h]
  have heq : a.applyBinary .eq b = boolean (a.equal b) := rfl
  constructor
  case uniform =>
    refine .inr ⟨hsome, ?_⟩
    simp only [BinaryOp.comparisons, List.forall_mem_cons]
    exact ⟨⟨_, hlt⟩, ⟨_, hle⟩, ⟨_, hgt⟩, ⟨_, hge⟩, List.forall_mem_nil _⟩
  case lt_eq_gt =>
    have hgt' : b.applyBinary .gt a = boolean o.swap.isGT := ordered_of_some hswap
    rw [hlt, hgt']
    cases o <;> rfl
  case le_eq_ge =>
    have hge' : b.applyBinary .ge a = boolean o.swap.isGE := ordered_of_some hswap
    rw [hle, hge']
    cases o <;> rfl
  case le_eq_not_gt =>
    intro holds hholds
    rw [hgt] at hholds
    cases hholds
    rw [hle]
    cases o <;> rfl
  case ge_eq_not_lt =>
    intro holds hholds
    rw [hlt] at hholds
    cases hholds
    rw [hge]
    cases o <;> rfl
  case trichotomy =>
    intro _
    rw [hlt, hgt, h]
    cases o <;> simp
  case level_of_eq =>
    intro hequal
    rw [heq, boolean.injEq] at hequal
    have ho := (equal_iff_of_compare? (kind_eq_of_equal hequal) h).mp hequal
    rw [hle, hge, ho]
    exact .inl ⟨rfl, rfl⟩
  case eq_iff_level =>
    intro hkind _
    rw [heq, hlt, hgt, boolean.injEq, equal_iff_of_compare? hkind h]
    cases o <;> simp

theorem coherent (a b : Value) : Coherent a b := by
  cases h : a.compare? b with
  | none => exact coherent_of_none h
  | some o => exact coherent_of_some h

theorem applyBinary_congr {a' b' : Value} {op : BinaryOp} (hop : op ∈ BinaryOp.comparisons)
    (h : a.compare? b = a'.compare? b') : a.applyBinary op b = a'.applyBinary op b' := by
  have hordered (holds : Ordering → Bool) : ordered holds a b = ordered holds a' b' := by
    rw [ordered, h, ordered]
  simp only [BinaryOp.comparisons, List.mem_cons, List.not_mem_nil, or_false] at hop
  rcases hop with rfl | rfl | rfl | rfl <;> exact hordered _

theorem lt_string (s t : String) :
    (string s).applyBinary .lt (string t) = boolean (decide (s < t)) := by
  refine (ordered_of_some (compare?_string s t)).trans (congrArg boolean ?_)
  rw [Bool.eq_iff_iff, decide_eq_true_iff, Ordering.isLT_iff_eq_lt, compare_lt_iff_lt]

theorem singleton_lt_iff {c d : Char} : String.singleton c < String.singleton d ↔ c < d := by
  rw [String.lt_iff_toList_lt, String.toList_singleton, String.toList_singleton,
    List.cons_lt_cons_iff]
  simp

/-- Texts of one character are ordered as the characters. -/
theorem compare?_singleton (c d : Char) :
    (string (.singleton c)).compare? (string (.singleton d)) =
      (character c).compare? (character d) := by
  have hcharacters : (character c).compare? (character d) =
      some (compare (c.toNat : ℤ) d.toNat) := rfl
  rw [compare?_string, hcharacters]
  rcases lt_trichotomy c d with hlt | rfl | hgt
  · have hnat : (c.toNat : ℤ) < d.toNat := Int.ofNat_lt.mpr hlt
    rw [compare_lt_iff_lt.mpr (singleton_lt_iff.mpr hlt), compare_lt_iff_lt.mpr hnat]
  · rw [Std.compare_self, Std.compare_self]
  · have hnat : (d.toNat : ℤ) < c.toNat := Int.ofNat_lt.mpr hgt
    rw [compare_gt_iff_gt.mpr (singleton_lt_iff.mpr hgt), compare_gt_iff_gt.mpr hnat]

/-- The comparison operators and equality go by one order of any two values, and that of strings is
the lexicographic order of their code points, which is also that of the bytes they are encoded as;
on single characters it is the order of characters. -/
theorem comparisons_cohere :
    (∀ a b : Value, Coherent a b) ∧
    (∀ s t : String,
      (string s).applyBinary .lt (string t) =
        boolean (decide (Text.codePoints s < Text.codePoints t)) ∧
      (string s).applyBinary .lt (string t) =
        boolean (decide (s.toUTF8.toList < t.toUTF8.toList))) ∧
    ∀ c d : Char, ∀ op ∈ BinaryOp.comparisons,
      (string (.singleton c)).applyBinary op (string (.singleton d)) =
        (character c).applyBinary op (character d) := by
  refine ⟨coherent, ?_, ?_⟩
  · intro s t
    rw [lt_string]
    simp only [Text.codePoints_lt_iff, Text.toUTF8_lt_iff, and_self]
  · intro c d op hop
    exact applyBinary_congr hop (compare?_singleton c d)

/-- The two zeros are equal, so neither is less; a character of two bytes comes after one of one. -/
theorem comparisons_cohere_zeros :
    ((float 0.0).applyBinary .eq (float (Binary64.ofMagnitude true 0)) = boolean true ∧
      (float 0.0).applyBinary .le (float (Binary64.ofMagnitude true 0)) = boolean true ∧
      (float 0.0).applyBinary .ge (float (Binary64.ofMagnitude true 0)) = boolean true) ∧
    (.gt ∈ BinaryOp.comparisons ∧
      (string (.singleton '\u00e9')).applyBinary .gt (string (.singleton 'z')) =
        (character '\u00e9').applyBinary .gt (character 'z')) := by
  obtain ⟨hpairs, _, hcharacters⟩ := comparisons_cohere
  have hzeros : (float 0.0).compare? (float (Binary64.ofMagnitude true 0)) = some .eq := by decide
  have hequal : (float 0.0).applyBinary .eq (float (Binary64.ofMagnitude true 0)) = boolean true :=
    congrArg boolean (by decide)
  have hmem : BinaryOp.gt ∈ BinaryOp.comparisons := by decide
  refine ⟨⟨hequal, ?_⟩, hmem, hcharacters '\u00e9' 'z' .gt hmem⟩
  rcases (hpairs _ _).level_of_eq hequal with hlevel | herrors
  · exact hlevel
  · have hlt : (float 0.0).applyBinary .lt (float (Binary64.ofMagnitude true 0)) = boolean false :=
      ordered_of_some hzeros
    rw [herrors .lt (by decide)] at hlt
    cases hlt

end Value
end MooScript
