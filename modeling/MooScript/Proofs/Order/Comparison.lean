import MooScript.Proofs.Binary64.Integer
import MooScript.Proofs.Builtin.Domain

/-! The order of values. It is that of numbers, of ordinals of one kind, or of strings, and each of
these is a total preorder, with one gap: a float does not tell apart the integers that are rounded
to it, which are in order among themselves. -/
namespace MooScript

/-- Of two steps up the first that is strict decides. -/
theorem compare_eq_then {α : Type} [Ord α] [Std.TransOrd α] {a b c : α}
    (h : (compare a b).isLE = true) (h' : (compare b c).isLE = true) :
    compare a c = (compare a b).then (compare b c) := by
  cases hab : compare a b with
  | lt => exact Std.TransCmp.lt_of_lt_of_isLE hab h'
  | eq => exact Std.TransCmp.congr_left hab
  | gt =>
    rw [hab] at h
    cases h

namespace Binary64

variable {x y z : Float} {o o' : Ordering} {m n : Int64}

theorem compare?_eq_some_iff : compare? x y = some o ↔
    isNaN x = false ∧ isNaN y = false ∧ compare (rank x) (rank y) = o := by
  unfold compare?
  cases isNaN x <;> cases isNaN y <;> simp

theorem compare?_swap (x y : Float) : compare? y x = (compare? x y).map Ordering.swap := by
  unfold compare?
  rw [Bool.or_comm]
  split
  next => rfl
  next => rw [Option.map_some, ← Std.OrientedOrd.eq_swap]

theorem compare?_trans (h : compare? x y = some o) (h' : compare? y z = some o')
    (ho : o.isLE = true) (ho' : o'.isLE = true) : compare? x z = some (o.then o') := by
  obtain ⟨hx, _, rfl⟩ := compare?_eq_some_iff.mp h
  obtain ⟨_, hz, rfl⟩ := compare?_eq_some_iff.mp h'
  exact compare?_eq_some_iff.mpr ⟨hx, hz, compare_eq_then ho ho'⟩

theorem isNaN_ofInt64 (n : Int64) : isNaN (ofInt64 n) = false :=
  isNaN_of_isFinite (isFinite_ofInt64 n)

/-- Two integers that are both rounded to where a float stands. -/
def Merges (m n : Int64) (x : Float) : Prop :=
  compare? (ofInt64 m) x = some .eq ∧ compare? (ofInt64 n) x = some .eq

theorem merges_iff (hx : isNaN x = false) : Merges m n x ↔
    rankOfInt m.toInt = rank x ∧ rankOfInt n.toInt = rank x := by
  simp only [Merges, compare?_eq_some_iff, isNaN_ofInt64, hx, rank_ofInt64, compare_eq_iff_eq,
    true_and]

theorem le_natAbs_of_merges (hne : m ≠ n) (h : Merges m n x) :
    2 ^ 53 ≤ m.toInt.natAbs ∧ 2 ^ 53 ≤ n.toInt.natAbs := by
  obtain ⟨_, hx, _⟩ := compare?_eq_some_iff.mp h.1
  obtain ⟨hm, hn⟩ := (merges_iff hx).mp h
  rcases lt_or_gt_of_ne (Int64.toInt_inj.not.mpr hne) with hlt | hlt
  · exact le_natAbs_of_rankOfInt_eq hlt (hm.trans hn.symm)
  · exact (le_natAbs_of_rankOfInt_eq hlt (hn.trans hm.symm)).symm

end Binary64

namespace Number

variable {x y z : Number} {o o' : Ordering}

def toValue : Number → Value
  | integer n => .integer n
  | float x => .float x

theorem compare?_swap (x y : Number) : y.compare? x = (x.compare? y).map Ordering.swap := by
  cases x with
  | integer m =>
    cases y with
    | integer n => exact congrArg some Std.OrientedOrd.eq_swap
    | float y => exact Binary64.compare?_swap _ _
  | float x =>
    cases y with
    | integer n => exact Binary64.compare?_swap _ _
    | float y => exact Binary64.compare?_swap _ _

end Number

namespace Value

variable {m n : Int64} {x : Float}

/-- Two of the three are integers that a float, which is the other, does not tell apart; that they
are in order beside it, or out of order around it, shows what it passes over. -/
inductive Blurred : Value → Value → Value → Prop
  | first (m n : Int64) (x : Float) (hlt : m < n) (h : Binary64.Merges m n x) :
    Blurred (.float x) (.integer m) (.integer n)
  | middle (m n : Int64) (x : Float) (hlt : n < m) (h : Binary64.Merges m n x) :
    Blurred (.integer m) (.float x) (.integer n)
  | last (m n : Int64) (x : Float) (hlt : m < n) (h : Binary64.Merges m n x) :
    Blurred (.integer m) (.integer n) (.float x)

theorem blurred_first : Blurred (.float x) (.integer m) (.integer n) ↔
    m < n ∧ Binary64.Merges m n x := by
  constructor
  · rintro ⟨⟩
    exact ⟨‹_›, ‹_›⟩
  · exact fun h => .first m n x h.1 h.2

theorem blurred_middle : Blurred (.integer m) (.float x) (.integer n) ↔
    n < m ∧ Binary64.Merges m n x := by
  constructor
  · rintro ⟨⟩
    exact ⟨‹_›, ‹_›⟩
  · exact fun h => .middle m n x h.1 h.2

theorem blurred_last : Blurred (.integer m) (.integer n) (.float x) ↔
    m < n ∧ Binary64.Merges m n x := by
  constructor
  · rintro ⟨⟩
    exact ⟨‹_›, ‹_›⟩
  · exact fun h => .last m n x h.1 h.2

/-- What two steps up make together: a step up, and a level one only if both are, unless the values
are blurred; and in any case a strict one, if both are strict. -/
def Chains (a b c : Value) (o o' : Ordering) : Prop :=
  ∃ o'', a.compare? c = some o'' ∧
    (o''.isLE = true ∧ (o'' = .eq → o = .eq ∧ o' = .eq) ↔ ¬ Blurred a b c) ∧
    (o = .lt → o' = .lt → o'' = .lt)

theorem chains_of_then {a b c : Value} {o o' : Ordering} (h : a.compare? c = some (o.then o'))
    (ho : o.isLE = true) (ho' : o'.isLE = true) (hblurred : ¬ Blurred a b c) :
    Chains a b c o o' := by
  refine ⟨_, h, iff_of_true ⟨?_, Ordering.then_eq_eq.mp⟩ hblurred, ?_⟩
  · exact Ordering.isLE_then_iff_and.mpr ⟨ho, .inr ho'⟩
  · rintro rfl _
    exact Ordering.lt_then

end Value

namespace Number

open Value

variable {x y z : Number} {o o' : Ordering} {m n : Int64} {d : Float}

theorem chains_first (h : (float d).compare? (integer m) = some o)
    (h' : (integer m).compare? (integer n) = some o') (ho : o.isLE = true) (ho' : o'.isLE = true) :
    Chains (.float d) (.integer m) (.integer n) o o' := by
  obtain ⟨(hd : Binary64.isNaN d = false), _, rfl⟩ := Binary64.compare?_eq_some_iff.mp h
  cases h'
  refine ⟨_, Binary64.compare?_eq_some_iff.mpr ⟨hd, Binary64.isNaN_ofInt64 n, rfl⟩, ?_, ?_⟩
  all_goals
    have hmono := Binary64.rankOfInt_mono (Int.isLE_compare.mp ho')
    simp only [toFloat, Int.isLE_compare, compare_eq_iff_eq, compare_lt_iff_lt, blurred_first,
      Binary64.merges_iff hd, Int64.lt_iff_toInt_lt, Binary64.rank_ofInt64] at ho ho' hmono ⊢
    omega

theorem chains_middle (h : (integer m).compare? (float d) = some o)
    (h' : (float d).compare? (integer n) = some o') (ho : o.isLE = true) (ho' : o'.isLE = true) :
    Chains (.integer m) (.float d) (.integer n) o o' := by
  obtain ⟨_, (hd : Binary64.isNaN d = false), rfl⟩ := Binary64.compare?_eq_some_iff.mp h
  obtain ⟨_, _, rfl⟩ := Binary64.compare?_eq_some_iff.mp h'
  have hmono : n.toInt ≤ m.toInt → _ := Binary64.rankOfInt_mono
  refine ⟨_, rfl, ?_, ?_⟩
  all_goals
    simp only [toFloat, Int.isLE_compare, compare_eq_iff_eq, compare_lt_iff_lt, blurred_middle,
      Binary64.merges_iff hd, Int64.lt_iff_toInt_lt, Binary64.rank_ofInt64] at ho ho' hmono ⊢
    omega

theorem chains_last (h : (integer m).compare? (integer n) = some o)
    (h' : (integer n).compare? (float d) = some o') (ho : o.isLE = true) (ho' : o'.isLE = true) :
    Chains (.integer m) (.integer n) (.float d) o o' := by
  obtain ⟨_, (hd : Binary64.isNaN d = false), rfl⟩ := Binary64.compare?_eq_some_iff.mp h'
  cases h
  have hmono := Binary64.rankOfInt_mono (Int.isLE_compare.mp ho)
  refine ⟨_, Binary64.compare?_eq_some_iff.mpr ⟨Binary64.isNaN_ofInt64 m, hd, rfl⟩, ?_, ?_⟩
  all_goals
    simp only [toFloat, Int.isLE_compare, compare_eq_iff_eq, compare_lt_iff_lt, blurred_last,
      Binary64.merges_iff hd, Int64.lt_iff_toInt_lt, Binary64.rank_ofInt64] at ho ho' hmono ⊢
    omega

/-- Two integers compare as such; any other two numbers compare as doubles. -/
theorem chains (h : x.compare? y = some o) (h' : y.compare? z = some o')
    (ho : o.isLE = true) (ho' : o'.isLE = true) : Chains x.toValue y.toValue z.toValue o o' := by
  cases x with
  | integer m =>
    cases y with
    | integer n =>
      cases z with
      | integer k =>
        cases h
        cases h'
        exact chains_of_then (congrArg some (compare_eq_then ho ho')) ho ho' (by rintro ⟨⟩)
      | float d => exact chains_last h h' ho ho'
    | float d =>
      cases z with
      | integer n => exact chains_middle h h' ho ho'
      | float e =>
        exact chains_of_then (Binary64.compare?_trans h h' ho ho') ho ho' (by rintro ⟨⟩)
  | float d =>
    cases y with
    | integer m =>
      cases z with
      | integer n => exact chains_first h h' ho ho'
      | float e =>
        exact chains_of_then (Binary64.compare?_trans h h' ho ho') ho ho' (by rintro ⟨⟩)
    | float e =>
      cases z with
      | integer n =>
        exact chains_of_then (Binary64.compare?_trans h h' ho ho') ho ho' (by rintro ⟨⟩)
      | float f =>
        exact chains_of_then (Binary64.compare?_trans h h' ho ho') ho ho' (by rintro ⟨⟩)

end Number

namespace Ordinal

variable {x y : Ordinal}

theorem kind_toValue (x : Ordinal) : x.toValue.kind = x.kind := by
  cases x <;> rfl

theorem compare?_of_kind (h : x.kind = y.kind) :
    x.compare? y = some (compare x.position y.position) :=
  if_pos h

theorem compare?_swap (x y : Ordinal) : y.compare? x = (x.compare? y).map Ordering.swap := by
  by_cases h : x.kind = y.kind
  · rw [compare?_of_kind h, compare?_of_kind h.symm, Option.map_some, ← Std.OrientedOrd.eq_swap]
  · rw [compare?, if_neg (Ne.symm h), compare?, if_neg h, Option.map_none]

end Ordinal

namespace Value

variable {a b c : Value} {o o' : Ordering}

theorem compare?_number (x y : Number) : x.toValue.compare? y.toValue = x.compare? y := by
  cases x <;> cases y <;> rfl

theorem compare?_ordinal (x y : Ordinal) : x.toValue.compare? y.toValue = x.compare? y := by
  cases x <;> cases y <;> rfl

theorem compare?_string (s t : String) : (string s).compare? (string t) = some (compare s t) := rfl

theorem exists_number (h : a.kind ∈ ValueKind.numbers) : ∃ x : Number, a = x.toValue := by
  cases a with
  | integer n => exact ⟨.integer n, rfl⟩
  | float x => exact ⟨.float x, rfl⟩
  | _ => simp [kind, ValueKind.numbers] at h

theorem exists_ordinal (h : a.kind ∈ ValueKind.ordinals) : ∃ x : Ordinal, a = x.toValue := by
  cases a with
  | boolean b => exact ⟨.boolean b, rfl⟩
  | character c => exact ⟨.character c, rfl⟩
  | integer n => exact ⟨.integer n, rfl⟩
  | object id => exact ⟨.object id, rfl⟩
  | _ => simp [kind, ValueKind.ordinals] at h

theorem exists_string (h : a.kind = .string) : ∃ s, a = string s := by
  cases a with
  | string s => exact ⟨s, rfl⟩
  | _ => cases h

theorem Comparable.symm (h : Comparable a b) : Comparable b a := by
  rcases h with ⟨ha, hb⟩ | ⟨ha, hkind⟩ | ⟨ha, hb⟩
  · exact .inl ⟨hb, ha⟩
  · exact .inr (.inl ⟨hkind ▸ ha, hkind.symm⟩)
  · exact .inr (.inr ⟨hb, ha⟩)

/-- What is comparable with a number is one. -/
theorem Comparable.kind_mem_numbers (h : Comparable a b) (ha : a.kind ∈ ValueKind.numbers) :
    b.kind ∈ ValueKind.numbers := by
  rcases h with ⟨_, hb⟩ | ⟨_, hkind⟩ | ⟨hstring, _⟩
  · exact hb
  · exact hkind ▸ ha
  · simp [hstring, ValueKind.numbers] at ha

/-- Otherwise only values of one kind are comparable. -/
theorem Comparable.kind_eq (h : Comparable a b) (ha : a.kind ∉ ValueKind.numbers) :
    a.kind = b.kind := by
  rcases h with ⟨hnumber, _⟩ | ⟨_, hkind⟩ | ⟨hstring, hstring'⟩
  · exact absurd hnumber ha
  · exact hkind
  · rw [hstring, hstring']

theorem Comparable.ordinal_or_string (h : Comparable a b) (ha : a.kind ∉ ValueKind.numbers) :
    a.kind ∈ ValueKind.ordinals ∨ a.kind = .string := by
  rcases h with ⟨hnumber, _⟩ | ⟨hordinal, _⟩ | ⟨hstring, _⟩
  · exact absurd hnumber ha
  · exact .inl hordinal
  · exact .inr hstring

theorem Comparable.cases (h : Comparable a b) :
    (∃ x y : Number, a = x.toValue ∧ b = y.toValue) ∨
    (∃ x y : Ordinal, x.kind = y.kind ∧ a = x.toValue ∧ b = y.toValue) ∨
    ∃ s t, a = string s ∧ b = string t := by
  rcases h with ⟨ha, hb⟩ | ⟨ha, hkind⟩ | ⟨ha, hb⟩
  · obtain ⟨x, rfl⟩ := exists_number ha
    obtain ⟨y, rfl⟩ := exists_number hb
    exact .inl ⟨x, y, rfl, rfl⟩
  · obtain ⟨x, rfl⟩ := exists_ordinal ha
    obtain ⟨y, rfl⟩ := exists_ordinal (hkind ▸ ha)
    rw [Ordinal.kind_toValue, Ordinal.kind_toValue] at hkind
    exact .inr (.inl ⟨x, y, hkind, rfl, rfl⟩)
  · obtain ⟨s, rfl⟩ := exists_string ha
    obtain ⟨t, rfl⟩ := exists_string hb
    exact .inr (.inr ⟨s, t, rfl, rfl⟩)

theorem compare?_of_not_comparable (h : ¬ Comparable a b) : a.compare? b = none := by
  unfold compare?
  split
  next x y hx hy => exact absurd (.inl ⟨kind_of_number? hx, kind_of_number? hy⟩) h
  next x y hx hy _ => exact compare?_eq_none hx hy h
  next =>
    split
    next => exact absurd (.inr (.inr ⟨rfl, rfl⟩)) h
    next => rfl

theorem comparable_of_compare? (h : a.compare? b = some o) : Comparable a b := by
  by_contra hnot
  rw [compare?_of_not_comparable hnot] at h
  cases h

theorem compare?_swap (a b : Value) : b.compare? a = (a.compare? b).map Ordering.swap := by
  by_cases h : Comparable a b
  · rcases h.cases with ⟨x, y, rfl, rfl⟩ | ⟨x, y, _, rfl, rfl⟩ | ⟨s, t, rfl, rfl⟩
    · rw [compare?_number, compare?_number]
      exact x.compare?_swap y
    · rw [compare?_ordinal, compare?_ordinal]
      exact x.compare?_swap y
    · exact congrArg some Std.OrientedOrd.eq_swap
  · rw [compare?_of_not_comparable h, compare?_of_not_comparable fun hba => h hba.symm,
      Option.map_none]

theorem Blurred.kind_mem_numbers (h : Blurred a b c) : a.kind ∈ ValueKind.numbers := by
  cases h <;> simp [kind, ValueKind.numbers]

theorem chains (h : a.compare? b = some o) (h' : b.compare? c = some o')
    (ho : o.isLE = true) (ho' : o'.isLE = true) : Chains a b c o o' := by
  have hab := comparable_of_compare? h
  have hbc := comparable_of_compare? h'
  by_cases ha : a.kind ∈ ValueKind.numbers
  · obtain ⟨x, rfl⟩ := exists_number ha
    obtain ⟨y, rfl⟩ := exists_number (hab.kind_mem_numbers ha)
    obtain ⟨z, rfl⟩ := exists_number (hbc.kind_mem_numbers (hab.kind_mem_numbers ha))
    rw [compare?_number] at h h'
    exact Number.chains h h' ho ho'
  · refine chains_of_then ?_ ho ho' fun hblurred => ha hblurred.kind_mem_numbers
    have hkind := hab.kind_eq ha
    have hkind' := hbc.kind_eq (hkind ▸ ha)
    rcases hab.ordinal_or_string ha with hordinal | hstring
    · obtain ⟨x, rfl⟩ := exists_ordinal hordinal
      obtain ⟨y, rfl⟩ := exists_ordinal (hkind ▸ hordinal)
      obtain ⟨z, rfl⟩ := exists_ordinal (hkind' ▸ hkind ▸ hordinal)
      simp only [Ordinal.kind_toValue] at hkind hkind'
      rw [compare?_ordinal, Ordinal.compare?_of_kind hkind] at h
      rw [compare?_ordinal, Ordinal.compare?_of_kind hkind'] at h'
      rw [compare?_ordinal, Ordinal.compare?_of_kind (hkind.trans hkind')]
      cases h
      cases h'
      exact congrArg some (compare_eq_then ho ho')
    · obtain ⟨s, rfl⟩ := exists_string hstring
      obtain ⟨t, rfl⟩ := exists_string (hkind ▸ hstring)
      obtain ⟨u, rfl⟩ := exists_string (hkind' ▸ hkind ▸ hstring)
      cases h
      cases h'
      exact congrArg some (compare_eq_then ho ho')

/-- Doubles hold all smaller integers exactly. -/
theorem Blurred.le_natAbs (h : Blurred a b c) (n : Int64) (hn : integer n ∈ [a, b, c]) :
    2 ^ 53 ≤ n.toInt.natAbs := by
  have hlarge {k l : Int64} {x : Float} (hne : k ≠ l) (hmerges : Binary64.Merges k l x)
      (hmem : n = k ∨ n = l) : 2 ^ 53 ≤ n.toInt.natAbs := by
    obtain ⟨hk, hl⟩ := Binary64.le_natAbs_of_merges hne hmerges
    rcases hmem with rfl | rfl
    · exact hk
    · exact hl
  cases h with
  | first k l x hlt h => exact hlarge (Int64.ne_of_lt hlt) h (by simpa using hn)
  | middle k l x hlt h => exact hlarge (Int64.ne_of_lt hlt).symm h (by simpa using hn)
  | last k l x hlt h => exact hlarge (Int64.ne_of_lt hlt) h (by simpa using hn)

/-- The order of values is a total preorder up to what floats blur. Exchanging the values turns it
around. Two steps up make a step up, which is level only if both are, unless the values are two
integers and a float that does not tell them apart; these integers are 2 ^ 53 at least, or their
negatives are. Two strict steps are always a strict one. -/
theorem compare?_preorder (a b c : Value) :
    b.compare? a = (a.compare? b).map Ordering.swap ∧
    (∀ o o', a.compare? b = some o → b.compare? c = some o' →
      o.isLE = true → o'.isLE = true → ∃ o'', a.compare? c = some o'' ∧
        (o''.isLE = true ∧ (o'' = .eq → o = .eq ∧ o' = .eq) ↔ ¬ Blurred a b c) ∧
        (o = .lt → o' = .lt → o'' = .lt)) ∧
    (Blurred a b c → ∀ n, integer n ∈ [a, b, c] → 2 ^ 53 ≤ n.toInt.natAbs) := by
  refine ⟨compare?_swap a b, ?_, Blurred.le_natAbs⟩
  intro o o' h h' ho ho'
  exact chains h h' ho ho'

/-- Beyond 2 ^ 53, two integers on either side of a float that neither is rounded to, and two that
the float between them is level with. -/
theorem compare?_preorder_beyond_exact :
    ((integer 9007199254740993).compare? (float 9007199254740994.0) = some .lt ∧
      (float 9007199254740994.0).compare? (integer 9007199254740995) = some .lt ∧
      (integer 9007199254740993).compare? (integer 9007199254740995) = some .lt) ∧
    Blurred (integer 9007199254740993) (float 9007199254740992.0) (integer 9007199254740992) ∧
    2 ^ 53 ≤ (9007199254740992 : Int64).toInt.natAbs := by
  have hlow : (integer 9007199254740993).compare? (float 9007199254740994.0) = some .lt := by decide
  have hhigh : (float 9007199254740994.0).compare? (integer 9007199254740995) = some .lt := by
    decide
  have hblurred : Blurred (integer 9007199254740993) (float 9007199254740992.0)
      (integer 9007199254740992) := .middle _ _ _ (by decide) ⟨by decide, by decide⟩
  obtain ⟨_, hchains, _⟩ := compare?_preorder (integer 9007199254740993)
    (float 9007199254740994.0) (integer 9007199254740995)
  obtain ⟨o, hwhole, _, hstrict⟩ := hchains _ _ hlow hhigh rfl rfl
  refine ⟨⟨hlow, hhigh, ?_⟩, hblurred, ?_⟩
  · rw [hwhole, hstrict rfl rfl]
  · exact (compare?_preorder _ _ _).2.2 hblurred _ (by simp)

/-- The odd number after 2 ^ 53 is level with 2 ^ 53 as a float, and so is 2 ^ 53; but the two
integers are not level, and are in the wrong order. -/
theorem compare?_not_transitive :
    (integer 9007199254740993).compare? (float 9007199254740992.0) = some .eq ∧
    (float 9007199254740992.0).compare? (integer 9007199254740992) = some .eq ∧
    (integer 9007199254740993).compare? (integer 9007199254740992) = some .gt := by
  decide

end Value

end MooScript
