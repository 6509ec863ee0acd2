import MooScript.Proofs.Order.Range

/-! Neighbours in the order of ordinals. To step on leads to the nearest ordinal and stepping back
undoes it, but for one place: no step leads over the code points that are no characters, which the
order and ranges pass over. -/
namespace MooScript

/-- Kinds of which the last value is followed by the first. -/
def ValueKind.cyclic : List ValueKind := [boolean, integer]

namespace Ordinal

variable {x y z lo hi : Ordinal} {xs : List Ordinal} {items : List Value} {limit : Nat} {n : Int}
  {k : ValueKind}

/-! ### The order -/

instance : PartialOrder Ordinal where
  le := AtMost
  le_refl x := atMost_iff.mpr ⟨rfl, le_rfl⟩
  le_trans x y z hxy hyz := by
    obtain ⟨hkind, hle⟩ := atMost_iff.mp hxy
    obtain ⟨hkind', hle'⟩ := atMost_iff.mp hyz
    exact atMost_iff.mpr ⟨hkind.trans hkind', hle.trans hle'⟩
  le_antisymm x y hxy hyx := by
    obtain ⟨hkind, hle⟩ := atMost_iff.mp hxy
    obtain ⟨_, hle'⟩ := atMost_iff.mp hyx
    exact (position_inj hkind).mp (le_antisymm hle hle')

theorem le_iff : x ≤ y ↔ x.kind = y.kind ∧ x.position ≤ y.position := atMost_iff

theorem lt_iff : x < y ↔ x.kind = y.kind ∧ x.position < y.position := by
  rw [lt_iff_le_not_ge, le_iff, le_iff]
  constructor
  · rintro ⟨⟨hkind, _⟩, hnot⟩
    exact ⟨hkind, not_le.mp fun hle => hnot ⟨hkind.symm, hle⟩⟩
  · rintro ⟨hkind, hlt⟩
    exact ⟨⟨hkind, hlt.le⟩, fun hle => not_le.mpr hlt hle.2⟩

theorem compare?_eq_some_lt_iff : x.compare? y = some .lt ↔ x < y := by
  rw [lt_iff, compare?, Option.ite_none_right_eq_some, Option.some.injEq, compare_lt_iff_lt]

theorem isMax_iff : IsMax x ↔ ∀ y : Ordinal, x.kind = y.kind → y.position ≤ x.position := by
  simp only [isMax_iff_forall_not_lt, lt_iff, not_and, not_lt]

theorem isMin_iff : IsMin x ↔ ∀ y : Ordinal, y.kind = x.kind → x.position ≤ y.position := by
  simp only [isMin_iff_forall_not_lt, lt_iff, not_and, not_lt]

/-! ### Which positions are taken -/

/-- The last character in front of the code points that are none, and the first behind them. -/
def beforeGap : Ordinal := .character '\ud7ff'

@[inherit_doc beforeGap]
def afterGap : Ordinal := .character '\ue000'

/-- A code point that is no character. -/
def Vacant (kind : ValueKind) (n : Int) : Prop := kind = .character ∧ 0xD800 ≤ n ∧ n < 0xE000

/-- Between two ordinals of a kind every position is taken that is not vacant. -/
theorem exists_position_iff (hkind : lo.kind = hi.kind) (hlow : lo.position ≤ n)
    (hhigh : n ≤ hi.position) :
    (∃ x : Ordinal, x.kind = lo.kind ∧ x.position = n) ↔ ¬ Vacant lo.kind n := by
  have htaken (x : Ordinal) (hx : x.kind = lo.kind) (hn : x.position = n)
      (hnot : lo.kind ≠ .character) :
      (∃ x : Ordinal, x.kind = lo.kind ∧ x.position = n) ↔ ¬ Vacant lo.kind n :=
    iff_of_true ⟨x, hx, hn⟩ fun hvacant => hnot hvacant.1
  cases lo with
  | boolean a =>
    cases hi with
    | boolean b =>
      refine htaken (.boolean (decide (n = 1))) rfl ?_ (by simp [kind])
      cases a <;> cases b <;> simp [position] at hlow hhigh ⊢ <;> omega
    | _ => cases hkind
  | character c =>
    cases hi with
    | character d =>
      constructor
      · rintro ⟨x, hx, rfl⟩ ⟨_, hvacant⟩
        cases x with
        | character e =>
          have hvalid : e.toNat.isValidChar := e.valid
          simp only [position, Nat.isValidChar] at hvacant hvalid
          omega
        | _ => cases hx
      · intro hnot
        have hvalid : n.toNat.isValidChar := by
          have hd : d.toNat.isValidChar := d.valid
          simp only [Vacant, kind, true_and, position, Nat.isValidChar] at hnot hlow hhigh hd ⊢
          omega
        refine ⟨.character (Char.ofNat n.toNat), rfl, ?_⟩
        simp only [position] at hlow ⊢
        rw [Char.toNat_ofNat, if_pos hvalid]
        omega
    | _ => cases hkind
  | integer a =>
    cases hi with
    | integer b =>
      exact htaken (.integer (Int64.ofInt n)) rfl
        (Int64.toInt_ofInt_of_le (a.le_toInt.trans hlow) (hhigh.trans_lt b.toInt_lt))
        (by simp [kind])
    | _ => cases hkind
  | object a =>
    cases hi with
    | object b =>
      exact htaken (.object (Int32.ofInt n)) rfl
        (Int32.toInt_ofInt_of_le (a.le_toInt.trans hlow) (hhigh.trans_lt b.toInt_lt))
        (by simp [kind])
    | _ => cases hkind

theorem not_vacant_position (x : Ordinal) : ¬ Vacant x.kind x.position :=
  (exists_position_iff rfl le_rfl le_rfl).mp ⟨x, rfl, rfl⟩

theorem eq_beforeGap (h : Vacant x.kind (x.position + 1)) : x = beforeGap := by
  obtain ⟨hkind, hlow, hhigh⟩ := h
  have hnot := x.not_vacant_position
  refine (position_inj hkind).mp ?_
  simp only [Vacant, hkind, true_and] at hnot
  change x.position = 0xD7FF
  omega

theorem eq_afterGap (h : Vacant x.kind (x.position - 1)) : x = afterGap := by
  obtain ⟨hkind, hlow, hhigh⟩ := h
  have hnot := x.not_vacant_position
  refine (position_inj hkind).mp ?_
  simp only [Vacant, hkind, true_and] at hnot
  change x.position = 0xE000
  omega

/-! ### Neighbours -/

theorem lt_or_le (h : x.kind = y.kind) : x < y ∨ y ≤ x := by
  rw [lt_iff, le_iff]
  rcases lt_or_ge x.position y.position with hlt | hge
  · exact .inl ⟨h, hlt⟩
  · exact .inr ⟨h.symm, hge⟩

/-- Within a kind, what covers an ordinal is the least above it. -/
theorem isLeast_of_covBy (h : x ⋖ y) : IsLeast (Set.Ioi x) y := by
  refine ⟨h.lt, fun z hz => ?_⟩
  have hkind : z.kind = y.kind := (lt_iff.mp hz).1.symm.trans (lt_iff.mp h.lt).1
  exact (lt_or_le hkind).resolve_left (h.2 hz)

theorem isGreatest_of_covBy (h : x ⋖ y) : IsGreatest (Set.Iio y) x := by
  refine ⟨h.lt, fun z hz => ?_⟩
  have hkind : x.kind = z.kind := (lt_iff.mp h.lt).1.trans (lt_iff.mp hz).1.symm
  exact (lt_or_le hkind).resolve_left fun hlt => h.2 hlt hz

/-- The second of the two stands right behind the first. -/
def Adjacent (x y : Ordinal) : Prop := x.kind = y.kind ∧ x.position + 1 = y.position

theorem Adjacent.covBy (h : Adjacent x y) : x ⋖ y := by
  obtain ⟨hkind, hposition⟩ := h
  refine ⟨lt_iff.mpr ⟨hkind, by omega⟩, fun z hz hz' => ?_⟩
  have hlow := (lt_iff.mp hz).2
  have hhigh := (lt_iff.mp hz').2
  omega

theorem covBy_gap : beforeGap ⋖ afterGap := by
  refine ⟨lt_iff.mpr ⟨rfl, by decide⟩, fun z hz hz' => ?_⟩
  obtain ⟨hkind, hlow⟩ := lt_iff.mp hz
  exact z.not_vacant_position ⟨hkind.symm, hlow, (lt_iff.mp hz').2⟩

/-- An ordinal with one above it has one right behind it, unless it stands before the gap. -/
theorem exists_adjacent_of_lt (h : x < z) : (∃ y, Adjacent x y) ∨ x = beforeGap := by
  obtain ⟨hkind, hlt⟩ := lt_iff.mp h
  by_cases hvacant : Vacant x.kind (x.position + 1)
  · exact .inr (eq_beforeGap hvacant)
  · obtain ⟨y, hy, hposition⟩ := (exists_position_iff hkind (by omega) (by omega)).mpr hvacant
    exact .inl ⟨y, hy.symm, hposition.symm⟩

theorem exists_adjacent_of_gt (h : z < y) : (∃ x, Adjacent x y) ∨ y = afterGap := by
  obtain ⟨hkind, hlt⟩ := lt_iff.mp h
  by_cases hvacant : Vacant y.kind (y.position - 1)
  · exact .inr (eq_afterGap hvacant)
  · rw [← hkind] at hvacant
    obtain ⟨x, hx, hposition⟩ := (exists_position_iff hkind (by omega) (by omega)).mpr hvacant
    exact .inl ⟨x, hx.trans hkind, by omega⟩

/-- Nothing stands between neighbours, or the gap does. -/
theorem covBy_iff : x ⋖ y ↔ Adjacent x y ∨ x = beforeGap ∧ y = afterGap := by
  constructor
  · intro h
    rcases exists_adjacent_of_lt h.lt with ⟨z, hz⟩ | rfl
    · rw [(isLeast_of_covBy h).unique (isLeast_of_covBy hz.covBy)]
      exact .inl hz
    · exact .inr ⟨rfl, (isLeast_of_covBy h).unique (isLeast_of_covBy covBy_gap)⟩
  · rintro (h | ⟨rfl, rfl⟩)
    · exact h.covBy
    · exact covBy_gap

/-! ### Steps -/

/-- What comes behind the last value of a kind: a cyclic kind starts again. -/
def afterLast : ValueKind → Value
  | .boolean => .boolean false
  | .integer => .integer Int64.minValue
  | _ => .error .range

/-- What comes before the first value of a kind. -/
def beforeFirst : ValueKind → Value
  | .boolean => .boolean true
  | .integer => .integer Int64.maxValue
  | _ => .error .range

theorem toInt_add_one {n : Int64} (h : n ≠ Int64.maxValue) : (n + 1).toInt = n.toInt + 1 := by
  have hlow : -2 ^ 63 ≤ n.toInt := n.le_toInt
  have hhigh : n.toInt < 2 ^ 63 := n.toInt_lt
  have hne : n.toInt ≠ 2 ^ 63 - 1 := fun heq => h (Int64.toInt_inj.mp heq)
  rw [Int64.toInt_add, Int64.toInt_one]
  exact Int.bmod_eq_of_le (by omega) (by omega)

theorem succ_eq (x : Ordinal) :
    x.succ = (valueAt? x.kind (x.position + 1)).getD (afterLast x.kind) := by
  cases x with
  | boolean b => cases b <;> rfl
  | integer n =>
    by_cases hn : n = Int64.maxValue
    · subst hn
      rfl
    · have hnext : valueAt? .integer (n.toInt + 1) = some (.integer (n + 1)) :=
        congrArg (Option.map Value.integer) (Word.int64?_eq_some_iff.mpr (toInt_add_one hn))
      exact (congrArg (Option.getD · _) hnext).symm
  | _ => rfl

theorem pred_eq (x : Ordinal) :
    x.pred = (valueAt? x.kind (x.position - 1)).getD (beforeFirst x.kind) := by
  cases x with
  | boolean b => cases b <;> rfl
  | integer n =>
    by_cases hn : n = Int64.minValue
    · subst hn
      rfl
    · have hlast : n - 1 ≠ Int64.maxValue := fun h => hn (Int64.sub_eq_iff_eq_add.mp h)
      have hposition : (n - 1).toInt = n.toInt - 1 := by
        have hnext := toInt_add_one hlast
        rw [Int64.sub_add_cancel] at hnext
        omega
      have hprevious : valueAt? .integer (n.toInt - 1) = some (.integer (n - 1)) :=
        congrArg (Option.map Value.integer) (Word.int64?_eq_some_iff.mpr hposition)
      exact (congrArg (Option.getD · _) hprevious).symm
  | _ => rfl

theorem toValue_ne_error (x : Ordinal) (code : ErrorCode) : x.toValue ≠ .error code := by
  cases x <;> exact Value.noConfusion

theorem valueAt?_eq_some_toValue : valueAt? k n = some y.toValue ↔ y.kind = k ∧ y.position = n := by
  rw [valueAt?_eq_some_iff]
  constructor
  · rintro ⟨x, hvalue, hkind, hposition⟩
    rw [toValue_inj hvalue]
    exact ⟨hkind, hposition⟩
  · rintro ⟨hkind, hposition⟩
    exact ⟨y, rfl, hkind, hposition⟩

theorem Adjacent.succ_eq (h : Adjacent x y) : x.succ = y.toValue := by
  rw [Ordinal.succ_eq, valueAt?_eq_some_toValue.mpr ⟨h.1.symm, h.2.symm⟩, Option.getD_some]

theorem Adjacent.pred_eq (h : Adjacent x y) : y.pred = x.toValue := by
  rw [Ordinal.pred_eq, valueAt?_eq_some_toValue.mpr ⟨h.1, by rw [← h.2, add_sub_cancel_right]⟩,
    Option.getD_some]

theorem succ_of_not_adjacent (h : ∀ y, ¬ Adjacent x y) : x.succ = afterLast x.kind := by
  have hnone : valueAt? x.kind (x.position + 1) = none := by
    refine Option.eq_none_iff_forall_ne_some.mpr fun v hv => ?_
    obtain ⟨y, rfl, hkind, hposition⟩ := valueAt?_eq_some_iff.mp hv
    exact h y ⟨hkind.symm, hposition.symm⟩
  rw [succ_eq, hnone, Option.getD_none]

theorem pred_of_not_adjacent (h : ∀ x, ¬ Adjacent x y) : y.pred = beforeFirst y.kind := by
  have hnone : valueAt? y.kind (y.position - 1) = none := by
    refine Option.eq_none_iff_forall_ne_some.mpr fun v hv => ?_
    obtain ⟨x, rfl, hkind, hposition⟩ := valueAt?_eq_some_iff.mp hv
    exact h x ⟨hkind, by omega⟩
  rw [pred_eq, hnone, Option.getD_none]

theorem succ_of_isMax (h : IsMax x) : x.succ = afterLast x.kind :=
  succ_of_not_adjacent fun _ hy => h.not_lt hy.covBy.lt

theorem pred_of_isMin (h : IsMin y) : y.pred = beforeFirst y.kind :=
  pred_of_not_adjacent fun _ hx => h.not_lt hx.covBy.lt

/-- There is an ordinal right behind, or the gap is, or nothing at all. -/
theorem succ_cases (x : Ordinal) : (∃ y, Adjacent x y) ∨ x = beforeGap ∨ IsMax x := by
  by_cases h : IsMax x
  · exact .inr (.inr h)
  · obtain ⟨z, hz⟩ := not_isMax_iff.mp h
    rcases exists_adjacent_of_lt hz with hnext | hgap
    · exact .inl hnext
    · exact .inr (.inl hgap)

theorem pred_cases (y : Ordinal) : (∃ x, Adjacent x y) ∨ y = afterGap ∨ IsMin y := by
  by_cases h : IsMin y
  · exact .inr (.inr h)
  · obtain ⟨z, hz⟩ := not_isMin_iff.mp h
    rcases exists_adjacent_of_gt hz with hprevious | hgap
    · exact .inl hprevious
    · exact .inr (.inl hgap)

theorem isMax_unique (hx : IsMax x) (hy : IsMax y) (hkind : x.kind = y.kind) : x = y :=
  (position_inj hkind).mp (le_antisymm (isMax_iff.mp hy x hkind.symm) (isMax_iff.mp hx y hkind))

theorem isMin_unique (hx : IsMin x) (hy : IsMin y) (hkind : x.kind = y.kind) : x = y :=
  (position_inj hkind).mp (le_antisymm (isMin_iff.mp hx y hkind.symm) (isMin_iff.mp hy x hkind))

theorem afterLast_eq_error_iff : afterLast k = .error .range ↔ k ∉ ValueKind.cyclic := by
  cases k <;> simp [afterLast, ValueKind.cyclic]

theorem beforeFirst_eq_error_iff : beforeFirst k = .error .range ↔ k ∉ ValueKind.cyclic := by
  cases k <;> simp [beforeFirst, ValueKind.cyclic]

/-- A cyclic kind has a first and a last value, each behind the other. -/
theorem exists_ends (h : k ∈ ValueKind.cyclic) : ∃ first last : Ordinal,
    first.kind = k ∧ last.kind = k ∧ IsMin first ∧ IsMax last ∧
      afterLast k = first.toValue ∧ beforeFirst k = last.toValue := by
  have hboolean (x : Ordinal) (hx : x.kind = .boolean) : 0 ≤ x.position ∧ x.position ≤ 1 := by
    cases x with
    | boolean b => cases b <;> decide
    | _ => cases hx
  have hinteger (x : Ordinal) (hx : x.kind = .integer) :
      Int64.minValue.toInt ≤ x.position ∧ x.position ≤ Int64.maxValue.toInt := by
    cases x with
    | integer n => exact ⟨n.minValue_le_toInt, n.toInt_le⟩
    | _ => cases hx
  rcases List.mem_pair.mp h with rfl | rfl
  · exact ⟨.boolean false, .boolean true, rfl, rfl, isMin_iff.mpr fun x hx => (hboolean x hx).1,
      isMax_iff.mpr fun x hx => (hboolean x hx.symm).2, rfl, rfl⟩
  · exact ⟨.integer Int64.minValue, .integer Int64.maxValue, rfl, rfl,
      isMin_iff.mpr fun x hx => (hinteger x hx).1,
      isMax_iff.mpr fun x hx => (hinteger x hx.symm).2, rfl, rfl⟩

theorem succ_eq_error_iff :
    x.succ = .error .range ↔ x = beforeGap ∨ IsMax x ∧ x.kind ∉ ValueKind.cyclic := by
  constructor
  · intro h
    rcases x.succ_cases with ⟨y, hy⟩ | hgap | hmax
    · exact absurd (hy.succ_eq.symm.trans h) (y.toValue_ne_error _)
    · exact .inl hgap
    · exact .inr ⟨hmax, afterLast_eq_error_iff.mp ((succ_of_isMax hmax).symm.trans h)⟩
  · rintro (rfl | ⟨hmax, hkind⟩)
    · rfl
    · rw [succ_of_isMax hmax, afterLast_eq_error_iff.mpr hkind]

theorem pred_eq_error_iff :
    x.pred = .error .range ↔ x = afterGap ∨ IsMin x ∧ x.kind ∉ ValueKind.cyclic := by
  constructor
  · intro h
    rcases x.pred_cases with ⟨y, hy⟩ | hgap | hmin
    · exact absurd (hy.pred_eq.symm.trans h) (y.toValue_ne_error _)
    · exact .inl hgap
    · exact .inr ⟨hmin, beforeFirst_eq_error_iff.mp ((pred_of_isMin hmin).symm.trans h)⟩
  · rintro (rfl | ⟨hmin, hkind⟩)
    · rfl
    · rw [pred_of_isMin hmin, beforeFirst_eq_error_iff.mpr hkind]

/-- A step on that is no error leads to the least ordinal above, or around to the first of a kind;
and the step back leads back. -/
theorem exists_succ (h : x.succ ≠ .error .range) :
    ∃ y : Ordinal, x.succ = y.toValue ∧ y.pred = x.toValue ∧
      (IsLeast (Set.Ioi x) y ∨ IsMax x ∧ IsMin y ∧ y.kind = x.kind) := by
  rcases x.succ_cases with ⟨y, hy⟩ | rfl | hmax
  · exact ⟨y, hy.succ_eq, hy.pred_eq, .inl (isLeast_of_covBy hy.covBy)⟩
  · exact absurd rfl h
  · rw [succ_of_isMax hmax] at h ⊢
    have hkind := not_not.mp (mt afterLast_eq_error_iff.mpr h)
    obtain ⟨first, last, hfirst, hlast, hmin, hmax', hafter, hbefore⟩ := exists_ends hkind
    rw [← isMax_unique hmax hmax' hlast.symm] at hbefore
    exact ⟨first, hafter, by rw [pred_of_isMin hmin, hfirst, hbefore], .inr ⟨hmax, hmin, hfirst⟩⟩

theorem exists_pred (h : y.pred ≠ .error .range) :
    ∃ x : Ordinal, y.pred = x.toValue ∧ x.succ = y.toValue ∧
      (IsGreatest (Set.Iio y) x ∨ IsMin y ∧ IsMax x ∧ x.kind = y.kind) := by
  rcases y.pred_cases with ⟨x, hx⟩ | rfl | hmin
  · exact ⟨x, hx.pred_eq, hx.succ_eq, .inl (isGreatest_of_covBy hx.covBy)⟩
  · exact absurd rfl h
  · rw [pred_of_isMin hmin] at h ⊢
    have hkind := not_not.mp (mt beforeFirst_eq_error_iff.mpr h)
    obtain ⟨first, last, hfirst, hlast, hmin', hmax, hafter, hbefore⟩ := exists_ends hkind
    rw [← isMin_unique hmin hmin' hfirst.symm] at hafter
    exact ⟨last, hbefore, by rw [succ_of_isMax hmax, hlast, hafter], .inr ⟨hmin, hmax, hlast⟩⟩

/-! ### Ranges -/

/-- In an ascending list with nothing left out, each element is covered by the next. -/
theorem isChain_covBy (h : xs.Pairwise (· < ·))
    (hwhole : ∀ x ∈ xs, ∀ y ∈ xs, ∀ z, x < z → z < y → z ∈ xs) : xs.IsChain (· ⋖ ·) := by
  induction xs with
  | nil => exact .nil
  | cons x xs ih =>
    obtain ⟨hx, hxs⟩ := List.pairwise_cons.mp h
    cases xs with
    | nil => exact .singleton x
    | cons y ys =>
      have hy := (List.pairwise_cons.mp hxs).1
      refine List.isChain_cons_cons.mpr ⟨⟨hx y List.mem_cons_self, fun z hz hz' => ?_⟩, ih hxs ?_⟩
      · have hmem :=
          hwhole x List.mem_cons_self y (List.mem_cons_of_mem x List.mem_cons_self) z hz hz'
        rcases List.mem_cons.mp hmem with rfl | hmem
        · exact lt_irrefl _ hz
        · rcases List.mem_cons.mp hmem with rfl | hmem
          · exact lt_irrefl _ hz'
          · exact lt_asymm hz' (hy z hmem)
      · intro a ha b hb z hz hz'
        have hmem := hwhole a (List.mem_cons_of_mem x ha) b (List.mem_cons_of_mem x hb) z hz hz'
        exact (List.mem_cons.mp hmem).resolve_left ((hx a ha).trans hz).ne'

/-- The values of a range are those of the ordinals between its bounds, in ascending order. -/
theorem Spans.exists_map (h : Spans lo hi items) : ∃ xs : List Ordinal,
    xs.map toValue = items ∧ xs.Pairwise (· < ·) ∧ ∀ x, x ∈ xs ↔ x ∈ Set.Icc lo hi := by
  obtain ⟨xs, rfl⟩ : ∃ xs : List Ordinal, xs.map toValue = items := by
    refine (Set.range_list_map toValue).ge fun v hv => ?_
    obtain ⟨x, rfl, _⟩ := (h.mem_iff v).mp hv
    exact ⟨x, rfl⟩
  refine ⟨xs, rfl, (List.pairwise_map.mp h.ascending).imp fun hlt => ?_, fun x => ?_⟩
  · exact compare?_eq_some_lt_iff.mp (Value.compare?_ordinal _ _ ▸ hlt)
  · have hmem := h.mem_iff x.toValue
    rw [List.mem_map_of_injective fun _ _ => toValue_inj] at hmem
    rw [hmem]
    constructor
    · rintro ⟨y, hy, hlow, hhigh⟩
      rw [toValue_inj hy]
      exact ⟨hlow, hhigh⟩
    · exact fun ⟨hlow, hhigh⟩ => ⟨x, rfl, hlow, hhigh⟩

theorem Spans.isChain (h : Spans lo hi items) : items.IsChain fun v w =>
    ∃ x y : Ordinal, v = x.toValue ∧ w = y.toValue ∧ x ⋖ y := by
  obtain ⟨xs, rfl, hascending, hmem⟩ := h.exists_map
  refine (List.isChain_map toValue).mpr ((isChain_covBy hascending ?_).imp ?_)
  · intro x hx y hy z hz hz'
    exact (hmem z).mpr ⟨((hmem x).mp hx).1.trans hz.le, hz'.le.trans ((hmem y).mp hy).2⟩
  · exact fun x y hxy => ⟨x, y, rfl, rfl, hxy⟩

theorem exists_spans_of_range {a b : Value} (h : range a b limit = .list items) :
    ∃ lo hi : Ordinal, Spans lo hi items := by
  by_cases hordinals : a.kind ∈ ValueKind.ordinals ∧ a.kind = b.kind
  · obtain ⟨ha, hkind⟩ := hordinals
    obtain ⟨lo, rfl⟩ := Value.exists_ordinal ha
    obtain ⟨hi, rfl⟩ := Value.exists_ordinal (hkind ▸ ha)
    rw [kind_toValue, kind_toValue] at hkind
    rcases range_cases hkind limit with ⟨_, hquota⟩ | ⟨items', hlist, hspans, _⟩
    · rw [hquota] at h
      cases h
    · rw [hlist] at h
      cases h
      exact ⟨lo, hi, hspans⟩
  · rw [range_of_not_ordinals hordinals] at h
    cases h

/-- A step on leads to the least ordinal above, a step back to the greatest below, and from the ends
of a cyclic kind around; each undoes the other. A step is an error at the end of a kind that is not
cyclic, and at one more place: in front of the gap there is no step on, behind it no step back. The
elements of a range follow one another by steps, except over the gap. -/
theorem succ_pred_neighbours (x : Ordinal) (a b : Value) (limit : Nat) :
    (x.succ = .error .range ↔ x = beforeGap ∨ IsMax x ∧ x.kind ∉ ValueKind.cyclic) ∧
    (x.succ ≠ .error .range → ∃ y : Ordinal, x.succ = y.toValue ∧ y.pred = x.toValue ∧
      (IsLeast (Set.Ioi x) y ∨ IsMax x ∧ IsMin y ∧ y.kind = x.kind)) ∧
    (x.pred = .error .range ↔ x = afterGap ∨ IsMin x ∧ x.kind ∉ ValueKind.cyclic) ∧
    (x.pred ≠ .error .range → ∃ y : Ordinal, x.pred = y.toValue ∧ y.succ = x.toValue ∧
      (IsGreatest (Set.Iio x) y ∨ IsMin x ∧ IsMax y ∧ y.kind = x.kind)) ∧
    ∀ items, range a b limit = .list items → items.IsChain fun v w =>
      ∃ x y : Ordinal, v = x.toValue ∧ w = y.toValue ∧
        (x.succ = y.toValue ∨ x = beforeGap ∧ y = afterGap) := by
  refine ⟨succ_eq_error_iff, exists_succ, pred_eq_error_iff, exists_pred, fun items h => ?_⟩
  obtain ⟨lo, hi, hspans⟩ := exists_spans_of_range h
  refine hspans.isChain.imp fun v w hvw => ?_
  obtain ⟨x, y, hv, hw, hxy⟩ := hvw
  refine ⟨x, y, hv, hw, ?_⟩
  rcases covBy_iff.mp hxy with hadjacent | hgap
  · exact .inl hadjacent.succ_eq
  · exact .inr hgap

/-- The last integer, the character behind the first one behind the gap, and a range over it. -/
theorem succ_pred_neighbours_edges :
    (∃ y : Ordinal, (integer Int64.maxValue).succ = y.toValue ∧
      y.pred = .integer Int64.maxValue) ∧
    (∃ y : Ordinal, (character '\ue001').pred = y.toValue ∧ y.succ = .character '\ue001') ∧
    ∃ items, range beforeGap.toValue afterGap.toValue 2050 = .list items ∧
      items.IsChain fun v w => ∃ x y : Ordinal, v = x.toValue ∧ w = y.toValue ∧
        (x.succ = y.toValue ∨ x = beforeGap ∧ y = afterGap) := by
  have hspan : ¬ 2050 < beforeGap.span afterGap := by decide
  have hrange := (range_toValue (show beforeGap.kind = afterGap.kind from rfl)).trans
    (if_neg hspan)
  obtain ⟨-, hsucc, -⟩ :=
    succ_pred_neighbours (integer Int64.maxValue) beforeGap.toValue afterGap.toValue 2050
  obtain ⟨-, -, -, hpred, hranges⟩ :=
    succ_pred_neighbours (character '\ue001') beforeGap.toValue afterGap.toValue 2050
  obtain ⟨y, hy, hback, -⟩ := hsucc fun h => by cases h
  obtain ⟨z, hz, hon, -⟩ := hpred fun h => by cases h
  exact ⟨⟨y, hy, hback⟩, ⟨z, hz, hon⟩, _, hrange, hranges _ hrange⟩

/-- There are characters above one that has no next, and the least of them has no previous one. -/
theorem succ_stops_early : beforeGap.succ = .error .range ∧ afterGap.pred = .error .range ∧
    IsLeast (Set.Ioi beforeGap) afterGap ∧ IsGreatest (Set.Iio afterGap) beforeGap :=
  ⟨rfl, rfl, isLeast_of_covBy covBy_gap, isGreatest_of_covBy covBy_gap⟩

end Ordinal
end MooScript
