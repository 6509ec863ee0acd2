import MooScript.Proofs.Order.Neighbours

/-! The smaller and the larger of two values. They are found by dispatches of their own, which agree
with the order of values wherever no infinite float or NaN is involved. -/
namespace MooScript.Value

variable {a b c : Value} {o away : Ordering} {x y : Float}

/-- No infinite float and no NaN. -/
def IsFinite (a : Value) : Prop := ∀ x, a = float x → Binary64.isFinite x = true

/-- An integer becomes a float next to one. -/
def beside : Value → Value → Value
  | integer n, float _ => float (Binary64.ofInt64 n)
  | a, _ => a

/-- The first of two values, unless the order points away from it. -/
def preferred (away : Ordering) (a b : Value) : Value :=
  if a.compare? b = some away then b.beside a else a.beside b

/-- At most as large, where there is an order. -/
def AtMost (a b : Value) : Prop := ∃ o, a.compare? b = some o ∧ o.isLE = true

theorem compare?_eq_some_swap : b.compare? a = some o.swap ↔ a.compare? b = some o := by
  rw [compare?_swap a b]
  cases a.compare? b with
  | none => simp
  | some o' => simp [Ordering.swap_inj]

theorem ofFloat_choice (away : Ordering) (hx : Binary64.isFinite x = true)
    (hy : Binary64.isFinite y = true) :
    ofFloat (if Binary64.compare? y x = some away.swap then y else x) =
      if Binary64.compare? x y = some away then float y else float x := by
  have hswap : Binary64.compare? y x = some away.swap ↔ Binary64.compare? x y = some away :=
    compare?_eq_some_swap (a := float x) (b := float y)
  simp only [hswap]
  split
  next => exact if_pos hy
  next => exact if_pos hx

theorem ofFloat_least (hx : Binary64.isFinite x = true) (hy : Binary64.isFinite y = true) :
    ofFloat (Binary64.least x y) =
      if Binary64.compare? x y = some .gt then float y else float x := by
  rw [Binary64.least, Binary64.isNaN_of_isFinite hx, if_neg Bool.false_ne_true]
  exact ofFloat_choice .gt hx hy

theorem ofFloat_greatest (hx : Binary64.isFinite x = true) (hy : Binary64.isFinite y = true) :
    ofFloat (Binary64.greatest x y) =
      if Binary64.compare? x y = some .lt then float y else float x := by
  rw [Binary64.greatest, Binary64.isNaN_of_isFinite hx, if_neg Bool.false_ne_true]
  exact ofFloat_choice .lt hx hy

theorem preferred_integers (m n : Int64) : (integer m).preferred away (integer n) =
    integer (if compare m.toInt n.toInt = away then n else m) := by
  have hcompare : (integer m).compare? (integer n) = some away ↔
      compare m.toInt n.toInt = away := (Option.some.injEq _ _).to_iff
  simp only [preferred, hcompare, beside]
  exact (apply_ite integer _ _ _).symm

theorem min_integers (m n : Int64) :
    (integer m).min (integer n) = (integer m).preferred .gt (integer n) := by
  have hgt : compare m.toInt n.toInt = .gt ↔ ¬ m ≤ n := by
    rw [compare_gt_iff_gt, Int64.le_iff_toInt_le, not_le]
  rw [preferred_integers]
  simp only [hgt, ite_not]
  rfl

theorem max_integers (m n : Int64) :
    (integer m).max (integer n) = (integer m).preferred .lt (integer n) := by
  have hlt : compare m.toInt n.toInt = .lt ↔ ¬ n ≤ m := by
    rw [compare_lt_iff_lt, Int64.le_iff_toInt_le, not_le]
  rw [preferred_integers]
  simp only [hlt, ite_not]
  rfl

/-- What follows the order on integers and on finite floats follows it on both together. -/
theorem combine_follows {onInt : Int64 → Int64 → Int64} {onFloat : Float → Float → Float}
    (hint : ∀ m n, integer (onInt m n) = (integer m).preferred away (integer n))
    (hfloat : ∀ {x y}, Binary64.isFinite x = true → Binary64.isFinite y = true →
      ofFloat (onFloat x y) = if Binary64.compare? x y = some away then float y else float x)
    {x y : Number} (hx : x.toValue.IsFinite) (hy : y.toValue.IsFinite) :
    Number.combine onInt onFloat x y = x.toValue.preferred away y.toValue := by
  cases x with
  | integer m =>
    cases y with
    | integer n => exact hint m n
    | float e => exact hfloat (Binary64.isFinite_ofInt64 m) (hy e rfl)
  | float d =>
    cases y with
    | integer n => exact hfloat (hx d rfl) (Binary64.isFinite_ofInt64 n)
    | float e => exact hfloat (hx d rfl) (hy e rfl)

theorem min_number (x y : Number) : x.toValue.min y.toValue = x.min y := by
  cases x <;> cases y <;> rfl

theorem max_number (x y : Number) : x.toValue.max y.toValue = x.max y := by
  cases x <;> cases y <;> rfl

theorem beside_of_kind (h : a.kind = b.kind) : a.beside b = a := by
  cases a with
  | integer n =>
    cases b with
    | float x => cases h
    | _ => rfl
  | _ => rfl

/-- Between values of one kind nothing is converted. -/
theorem preferred_of_kind (h : a.kind = b.kind) :
    a.preferred away b = if a.compare? b = some away then b else a := by
  rw [preferred, beside_of_kind h, beside_of_kind h.symm]

theorem preferred_ordinals {x y : Ordinal} (h : x.kind = y.kind) :
    x.toValue.preferred away y.toValue =
      if x.compare? y = some away then y.toValue else x.toValue := by
  rw [preferred_of_kind (by rw [Ordinal.kind_toValue, Ordinal.kind_toValue, h]), compare?_ordinal]

/-- What is rebuilt at the position of an ordinal is that ordinal again. -/
theorem ordinal_pick {x y : Ordinal} (h : x.kind = y.kind) (keepsFirst : Ordering → Bool) :
    Ordinal.pick keepsFirst x y =
      if keepsFirst (compare x.position y.position) then x.toValue else y.toValue := by
  rw [Ordinal.pick, Ordinal.compare?_of_kind h]
  dsimp only
  cases keepsFirst (compare x.position y.position) with
  | true =>
    rw [if_pos rfl, if_pos rfl, Ordinal.valueAt?_eq_some_toValue.mpr ⟨rfl, rfl⟩, Option.getD_some]
  | false =>
    rw [if_neg Bool.false_ne_true, if_neg Bool.false_ne_true,
      Ordinal.valueAt?_eq_some_toValue.mpr ⟨h.symm, rfl⟩, Option.getD_some]

theorem ordinal_min {x y : Ordinal} (h : x.kind = y.kind) :
    x.min y = x.toValue.preferred .gt y.toValue := by
  rw [preferred_ordinals h, Ordinal.compare?_of_kind h, Ordinal.min, ordinal_pick h]
  cases compare x.position y.position <;> rfl

theorem ordinal_max {x y : Ordinal} (h : x.kind = y.kind) :
    x.max y = x.toValue.preferred .lt y.toValue := by
  rw [preferred_ordinals h, Ordinal.compare?_of_kind h, Ordinal.max, ordinal_pick h]
  cases compare x.position y.position <;> rfl

/-- Integers are compared as numbers, and the other ordinals as such. -/
theorem min_ordinals {x y : Ordinal} (h : x.kind = y.kind) :
    x.toValue.min y.toValue = x.toValue.preferred .gt y.toValue := by
  cases x with
  | integer m =>
    cases y with
    | integer n => exact min_integers m n
    | _ => cases h
  | _ => cases y <;> exact ordinal_min h

theorem max_ordinals {x y : Ordinal} (h : x.kind = y.kind) :
    x.toValue.max y.toValue = x.toValue.preferred .lt y.toValue := by
  cases x with
  | integer m =>
    cases y with
    | integer n => exact max_integers m n
    | _ => cases h
  | _ => cases y <;> exact ordinal_max h

theorem min_strings (s t : String) : (string s).min (string t) =
    (string s).preferred .gt (string t) := by
  have hgt : (string s).compare? (string t) = some .gt ↔ t < s := by
    rw [compare?_string, Option.some.injEq, compare_gt_iff_gt]
  change string (if t < s then t else s) = if _ then string t else string s
  simp only [hgt]
  exact apply_ite string _ _ _

theorem max_strings (s t : String) : (string s).max (string t) =
    (string s).preferred .lt (string t) := by
  have hlt : (string s).compare? (string t) = some .lt ↔ s < t := by
    rw [compare?_string, Option.some.injEq, compare_lt_iff_lt]
  change string (if s < t then t else s) = if _ then string t else string s
  simp only [hlt]
  exact apply_ite string _ _ _

/-- A choice between two values that goes by their order, where they have one. -/
structure Follows (away : Ordering) (f : Value → Value → Value) : Prop where
  strict : away ≠ .eq
  comparable : ∀ a b, Comparable a b → a.IsFinite → b.IsFinite → f a b = a.preferred away b
  incomparable : ∀ a b, ¬ Comparable a b → f a b = .error .type

theorem follows_min : Follows .gt Value.min := by
  refine ⟨by decide, ?_, fun a b => min_of_not_comparable⟩
  intro a b h ha hb
  rcases h.cases with ⟨x, y, rfl, rfl⟩ | ⟨x, y, hkind, rfl, rfl⟩ | ⟨s, t, rfl, rfl⟩
  · rw [min_number]
    exact combine_follows min_integers ofFloat_least ha hb
  · exact min_ordinals hkind
  · exact min_strings s t

theorem follows_max : Follows .lt Value.max := by
  refine ⟨by decide, ?_, fun a b => max_of_not_comparable⟩
  intro a b h ha hb
  rcases h.cases with ⟨x, y, rfl, rfl⟩ | ⟨x, y, hkind, rfl, rfl⟩ | ⟨s, t, rfl, rfl⟩
  · rw [max_number]
    exact combine_follows max_integers ofFloat_greatest ha hb
  · exact max_ordinals hkind
  · exact max_strings s t

theorem number_compare?_ne_none {x y : Number} (hx : x.toValue.IsFinite) (hy : y.toValue.IsFinite) :
    x.compare? y ≠ none := by
  have hdefined {d e : Float} (hd : Binary64.isFinite d = true) (he : Binary64.isFinite e = true) :
      Binary64.compare? d e ≠ none := by
    rw [Binary64.compare?_eq_some_iff.mpr
      ⟨Binary64.isNaN_of_isFinite hd, Binary64.isNaN_of_isFinite he, rfl⟩]
    exact Option.some_ne_none _
  cases x with
  | integer m =>
    cases y with
    | integer n => exact Option.some_ne_none _
    | float e => exact hdefined (Binary64.isFinite_ofInt64 m) (hy e rfl)
  | float d =>
    cases y with
    | integer n => exact hdefined (hx d rfl) (Binary64.isFinite_ofInt64 n)
    | float e => exact hdefined (hx d rfl) (hy e rfl)

theorem compare?_ne_none (h : Comparable a b) (ha : a.IsFinite) (hb : b.IsFinite) :
    a.compare? b ≠ none := by
  rcases h.cases with ⟨x, y, rfl, rfl⟩ | ⟨x, y, hkind, rfl, rfl⟩ | ⟨s, t, rfl, rfl⟩
  · rw [compare?_number]
    exact number_compare?_ne_none ha hb
  · rw [compare?_ordinal, Ordinal.compare?_of_kind hkind]
    exact Option.some_ne_none _
  · exact Option.some_ne_none _

/-- The conversion does not move a value with respect to the other. -/
theorem compare?_beside (a b : Value) : (a.beside b).compare? b = a.compare? b := by
  cases a with
  | integer n =>
    cases b with
    | float x => rfl
    | _ => rfl
  | _ => rfl

theorem Comparable.self_left (h : Comparable a b) : Comparable a a := by
  rcases h with ⟨ha, _⟩ | ⟨ha, _⟩ | ⟨ha, _⟩
  · exact .inl ⟨ha, ha⟩
  · exact .inr (.inl ⟨ha, rfl⟩)
  · exact .inr (.inr ⟨ha, ha⟩)

theorem compare?_self (h : Comparable a a) (ha : a.IsFinite) : a.compare? a = some .eq := by
  obtain ⟨o, ho⟩ := Option.ne_none_iff_exists'.mp (compare?_ne_none h ha ha)
  have hswap := compare?_eq_some_swap.mpr ho
  rw [ho, Option.some.injEq] at hswap
  cases o with
  | eq => exact ho
  | _ => cases hswap

theorem compare?_beside_self (h : Comparable a b) (ha : a.IsFinite) :
    (a.beside b).compare? a = some .eq := by
  have hself := compare?_self h.self_left ha
  cases a with
  | integer n =>
    cases b with
    | float x =>
      have hnumber := Binary64.isNaN_ofInt64 n
      exact Binary64.compare?_eq_some_iff.mpr ⟨hnumber, hnumber, Std.compare_self⟩
    | _ => exact hself
  | _ => exact hself

theorem preferred_compare?_left (h : Comparable a b) (ha : a.IsFinite) :
    (a.preferred away b).compare? a =
      if a.compare? b = some away then some away.swap else some .eq := by
  unfold preferred
  split
  next haway => rw [compare?_beside, compare?_eq_some_swap, haway]
  next => exact compare?_beside_self h ha

theorem preferred_compare?_right (h : Comparable a b) (hb : b.IsFinite) :
    (a.preferred away b).compare? b =
      if a.compare? b = some away then some .eq else a.compare? b := by
  unfold preferred
  split
  next => exact compare?_beside_self h.symm hb
  next => exact compare?_beside a b

/-- No other value is preferred to the preferred one. -/
theorem preferred_bound (haway : away ≠ .eq) (h : Comparable a b) (ha : a.IsFinite)
    (hb : b.IsFinite) (hc : c = a ∨ c = b) :
    ∃ o, (a.preferred away b).compare? c = some o ∧ o ≠ away := by
  obtain ⟨o, ho⟩ := Option.ne_none_iff_exists'.mp (compare?_ne_none h ha hb)
  have hswap : away.swap ≠ away := by
    cases away <;> simp at haway ⊢
  rcases hc with rfl | rfl
  · rw [preferred_compare?_left h ha]
    split
    next => exact ⟨_, rfl, hswap⟩
    next => exact ⟨_, rfl, haway.symm⟩
  · rw [preferred_compare?_right h hb]
    split
    next => exact ⟨_, rfl, haway.symm⟩
    next hne => exact ⟨o, ho, fun heq => hne (heq ▸ ho)⟩

theorem preferred_mem : a.preferred away b = a.beside b ∨ a.preferred away b = b.beside a := by
  unfold preferred
  split
  next => exact .inr rfl
  next => exact .inl rfl

/-! ### Values of one kind -/

theorem isFinite_of_kind (h : a.kind ≠ .float) : a.IsFinite := by
  rintro x rfl
  exact absurd rfl h

/-- Level values of one kind are the same, floats apart: their two zeros are level. -/
theorem eq_of_level (hkind : a.kind = b.kind) (hfloat : a.kind ≠ .float)
    (h : a.compare? b = some .eq) : a = b := by
  rcases (comparable_of_compare? h).cases with ⟨x, y, rfl, rfl⟩ | ⟨x, y, hordinal, rfl, rfl⟩ |
    ⟨s, t, rfl, rfl⟩
  · cases x with
    | integer m =>
      cases y with
      | integer n =>
        cases Int64.toInt_inj.mp (compare_eq_iff_eq.mp (Option.some.inj h))
        rfl
      | float e => cases hkind
    | float d => exact absurd rfl hfloat
  · rw [compare?_ordinal, Ordinal.compare?_of_kind hordinal, Option.some.injEq,
      compare_eq_iff_eq, Ordinal.position_inj hordinal] at h
    rw [h]
  · rw [compare?_string, Option.some.injEq, compare_eq_iff_eq] at h
    rw [h]

theorem compare?_strict_trans (haway : away ≠ .eq) (h : a.compare? b = some away)
    (h' : b.compare? c = some away) : a.compare? c = some away := by
  cases away with
  | lt =>
    obtain ⟨o, ho, _, hstrict⟩ := chains h h' rfl rfl
    rw [ho, hstrict rfl rfl]
  | eq => exact absurd rfl haway
  | gt =>
    have hba : b.compare? a = some .lt := compare?_eq_some_swap.mpr h
    have hcb : c.compare? b = some .lt := compare?_eq_some_swap.mpr h'
    obtain ⟨o, ho, _, hstrict⟩ := chains hcb hba rfl rfl
    rw [hstrict rfl rfl] at ho
    exact compare?_eq_some_swap.mpr ho

/-- Of two values of one kind that have an order, one is preferred or they are the same. -/
theorem preference (haway : away ≠ .eq) (hkind : a.kind = b.kind) (hfloat : a.kind ≠ .float)
    (h : a.compare? b ≠ none) :
    (a.compare? b = some away ∧ b.compare? a ≠ some away) ∨
    (a.compare? b ≠ some away ∧ b.compare? a = some away) ∨ a = b := by
  obtain ⟨o, ho⟩ := Option.ne_none_iff_exists'.mp h
  have hswap := compare?_eq_some_swap.mpr ho
  by_cases heq : o = .eq
  · exact .inr (.inr (eq_of_level hkind hfloat (heq ▸ ho)))
  · rw [ho, hswap]
    cases o <;> cases away <;> simp at heq haway ⊢

theorem preferred_comm (haway : away ≠ .eq) (hkind : a.kind = b.kind) (hfloat : a.kind ≠ .float)
    (h : a.compare? b ≠ none) : a.preferred away b = b.preferred away a := by
  rw [preferred_of_kind hkind, preferred_of_kind hkind.symm]
  rcases preference haway hkind hfloat h with ⟨hb, ha⟩ | ⟨hb, ha⟩ | rfl
  · rw [if_pos hb, if_neg ha]
  · rw [if_neg hb, if_pos ha]
  · rfl

/-- That the first of two values is kept goes through a third one, as does that it is not. -/
theorem kept_trans (haway : away ≠ .eq) (hab : a.kind = b.kind) (hbc : b.kind = c.kind)
    (hfloat : a.kind ≠ .float) (hdefined : a.compare? b ≠ none) (hdefined' : b.compare? c ≠ none)
    (h : a.compare? b ≠ some away) (h' : b.compare? c ≠ some away) :
    a.compare? c ≠ some away := by
  intro hac
  rcases preference haway hab hfloat hdefined with ⟨hb, _⟩ | ⟨_, ha⟩ | rfl
  · exact h hb
  · exact h' (compare?_strict_trans haway ha hac)
  · exact h' hac

theorem preferred_assoc (haway : away ≠ .eq) (hab : a.kind = b.kind) (hbc : b.kind = c.kind)
    (hfloat : a.kind ≠ .float) (hdefined : a.compare? b ≠ none) (hdefined' : b.compare? c ≠ none) :
    (a.preferred away b).preferred away c = a.preferred away (b.preferred away c) := by
  rw [preferred_of_kind hab, preferred_of_kind hbc]
  by_cases h : a.compare? b = some away
  · rw [if_pos h, preferred_of_kind hbc]
    by_cases h' : b.compare? c = some away
    · rw [if_pos h', preferred_of_kind (hab.trans hbc), if_pos (compare?_strict_trans haway h h')]
    · rw [if_neg h', preferred_of_kind hab, if_pos h]
  · rw [if_neg h, preferred_of_kind (hab.trans hbc)]
    by_cases h' : b.compare? c = some away
    · rw [if_pos h', preferred_of_kind (hab.trans hbc)]
    · rw [if_neg h', preferred_of_kind hab, if_neg h,
        if_neg (kept_trans haway hab hbc hfloat hdefined hdefined' h h')]

/-! ### Whatever follows the order -/

section Follows

variable {f : Value → Value → Value}

theorem comparable_of_kind {a' b' : Value} (h : Comparable a b) (ha : a.kind = a'.kind)
    (hb : b.kind = b'.kind) : Comparable a' b' := by
  unfold Comparable at h ⊢
  rw [← ha, ← hb]
  exact h

theorem not_comparable_error {code : ErrorCode} : ¬ Comparable (.error code) a := by
  simp [Comparable, kind, ValueKind.numbers, ValueKind.ordinals]

/-- Finite values that have no order are not comparable. -/
theorem compare?_eq_none_iff (ha : a.IsFinite) (hb : b.IsFinite) :
    a.compare? b = none ↔ ¬ Comparable a b :=
  ⟨fun hnone h => compare?_ne_none h ha hb hnone, compare?_of_not_comparable⟩

theorem Follows.eq_error_iff (hf : Follows away f) (ha : a.IsFinite) (hb : b.IsFinite) :
    f a b = .error .type ↔ a.compare? b = none := by
  rw [compare?_eq_none_iff ha hb]
  refine ⟨?_, hf.incomparable a b⟩
  intro herror h
  obtain ⟨o, ho, _⟩ := preferred_bound hf.strict h ha hb (.inl rfl)
  rw [← hf.comparable a b h ha hb, herror, compare?_of_not_comparable not_comparable_error] at ho
  cases ho

/-- The function of scripts takes a missing order for an invalid argument. -/
theorem Follows.onPair_eq (hf : Follows away f) (ha : a.IsFinite) (hb : b.IsFinite) :
    Builtin.onPair f [a, b] =
      if a.compare? b = none then .error .invalidArgument else f a b := by
  have herror := hf.eq_error_iff ha hb
  simp only [Builtin.onPair]
  by_cases h : a.compare? b = none
  · rw [if_pos h, herror.mpr h]
    rfl
  · rw [if_neg h]
    split
    next hab => exact absurd (herror.mp hab) h
    next => rfl

theorem Follows.comm (hf : Follows away f) (hkind : a.kind = b.kind) (hfloat : a.kind ≠ .float) :
    f a b = f b a := by
  by_cases h : Comparable a b
  · have ha := isFinite_of_kind hfloat
    have hb : b.IsFinite := isFinite_of_kind (hkind ▸ hfloat)
    rw [hf.comparable a b h ha hb, hf.comparable b a h.symm hb ha]
    exact preferred_comm hf.strict hkind hfloat (compare?_ne_none h ha hb)
  · rw [hf.incomparable a b h, hf.incomparable b a fun hba => h hba.symm]

theorem preferred_kind (hkind : a.kind = b.kind) : (a.preferred away b).kind = a.kind := by
  rw [preferred_of_kind hkind]
  split
  next => exact hkind.symm
  next => rfl

theorem Follows.assoc (hf : Follows away f) (hab : a.kind = b.kind) (hbc : b.kind = c.kind)
    (hfloat : a.kind ≠ .float) : f (f a b) c = f a (f b c) := by
  by_cases h : Comparable a b
  · have ha := isFinite_of_kind hfloat
    have hb : b.IsFinite := isFinite_of_kind (hab ▸ hfloat)
    have hc : c.IsFinite := isFinite_of_kind (hbc ▸ hab ▸ hfloat)
    have h' : Comparable b c := comparable_of_kind h hab hbc
    have hkind : (a.preferred away b).kind = a.kind := preferred_kind hab
    have hkind' : (b.preferred away c).kind = b.kind := preferred_kind hbc
    rw [hf.comparable a b h ha hb, hf.comparable b c h' hb hc,
      hf.comparable _ c (comparable_of_kind h hkind.symm hbc)
        (isFinite_of_kind (hkind ▸ hfloat)) hc,
      hf.comparable a _ (comparable_of_kind h rfl hkind'.symm) ha
        (isFinite_of_kind (hkind' ▸ hab ▸ hfloat))]
    exact preferred_assoc hf.strict hab hbc hfloat (compare?_ne_none h ha hb)
      (compare?_ne_none h' hb hc)
  · have h' : ¬ Comparable b c := fun hbc' => h (comparable_of_kind hbc' hab.symm (hbc.symm))
    rw [hf.incomparable a b h, hf.incomparable b c h', hf.incomparable _ c not_comparable_error,
      hf.incomparable a _ fun herror => not_comparable_error herror.symm]

end Follows

/-- What the two choices make of two values, and the functions of scripts of them. -/
structure Extremal (a b : Value) : Prop where
  min_error : a.min b = .error .type ↔ a.compare? b = none
  max_error : a.max b = .error .type ↔ a.compare? b = none
  min_builtin : ∃ f, Builtins.standard.find? "min" = some f ∧ ∀ s, f [a, b] s =
    (if a.compare? b = none then .error .invalidArgument else a.min b, s)
  max_builtin : ∃ f, Builtins.standard.find? "max" = some f ∧ ∀ s, f [a, b] s =
    (if a.compare? b = none then .error .invalidArgument else a.max b, s)
  min_atMost : a.compare? b ≠ none → (a.min b).AtMost a ∧ (a.min b).AtMost b
  atMost_max : a.compare? b ≠ none → a.AtMost (a.max b) ∧ b.AtMost (a.max b)
  min_mem : a.compare? b ≠ none → a.min b = a.beside b ∨ a.min b = b.beside a
  max_mem : a.compare? b ≠ none → a.max b = a.beside b ∨ a.max b = b.beside a
  /-- The smaller one is level with the first exactly when the larger one is with the second. -/
  level : a.compare? b ≠ none →
    ((a.min b).compare? a = some .eq ↔ (a.max b).compare? b = some .eq)

theorem find?_min : Builtins.standard.find? "min" = some (.pure (Builtin.onPair Value.min)) := by
  cbv

theorem find?_max : Builtins.standard.find? "max" = some (.pure (Builtin.onPair Value.max)) := by
  cbv

theorem min_atMost (h : Comparable a b) (ha : a.IsFinite) (hb : b.IsFinite)
    (hc : c = a ∨ c = b) : (a.min b).AtMost c := by
  obtain ⟨o, ho, hne⟩ := preferred_bound follows_min.strict h ha hb hc
  rw [follows_min.comparable a b h ha hb]
  exact ⟨o, ho, Ordering.isLE_iff_ne_gt.mpr hne⟩

theorem atMost_max (h : Comparable a b) (ha : a.IsFinite) (hb : b.IsFinite)
    (hc : c = a ∨ c = b) : c.AtMost (a.max b) := by
  obtain ⟨o, ho, hne⟩ := preferred_bound follows_max.strict h ha hb hc
  rw [follows_max.comparable a b h ha hb]
  refine ⟨o.swap, compare?_eq_some_swap.mpr ho, ?_⟩
  cases o with
  | lt => exact absurd rfl hne
  | _ => rfl

/-- Both are so exactly when the first value does not come after the second. -/
theorem level_iff (h : Comparable a b) (ha : a.IsFinite) (hb : b.IsFinite) :
    (a.min b).compare? a = some .eq ↔ (a.max b).compare? b = some .eq := by
  obtain ⟨o, ho⟩ := Option.ne_none_iff_exists'.mp (compare?_ne_none h ha hb)
  rw [follows_min.comparable a b h ha hb, follows_max.comparable a b h ha hb,
    preferred_compare?_left h ha, preferred_compare?_right h hb, ho]
  cases o <;> simp

theorem extremal (ha : a.IsFinite) (hb : b.IsFinite) : Extremal a b := by
  have hcomparable (h : a.compare? b ≠ none) : Comparable a b :=
    not_not.mp fun hnot => h (compare?_of_not_comparable hnot)
  constructor
  case min_error => exact follows_min.eq_error_iff ha hb
  case max_error => exact follows_max.eq_error_iff ha hb
  case min_builtin =>
    exact ⟨_, find?_min, fun s => congrArg (·, s) (follows_min.onPair_eq ha hb)⟩
  case max_builtin =>
    exact ⟨_, find?_max, fun s => congrArg (·, s) (follows_max.onPair_eq ha hb)⟩
  case min_atMost =>
    intro h
    exact ⟨min_atMost (hcomparable h) ha hb (.inl rfl), min_atMost (hcomparable h) ha hb (.inr rfl)⟩
  case atMost_max =>
    intro h
    exact ⟨atMost_max (hcomparable h) ha hb (.inl rfl), atMost_max (hcomparable h) ha hb (.inr rfl)⟩
  case min_mem =>
    intro h
    rw [follows_min.comparable a b (hcomparable h) ha hb]
    exact preferred_mem
  case max_mem =>
    intro h
    rw [follows_max.comparable a b (hcomparable h) ha hb]
    exact preferred_mem
  case level => exact fun h => level_iff (hcomparable h) ha hb

/-- `min` and `max` of values among which there are no infinite floats and no NaNs go by the order
of values: they are type errors where it has none, bounds of both values where it has one, and one
of the two values, as a float if just one of them is. On values of a kind other than floats they
are commutative and associative. -/
theorem extremes_follow_order :
    (∀ a b : Value, a.IsFinite → b.IsFinite → Extremal a b) ∧
    ∀ a b c : Value, a.kind = b.kind → b.kind = c.kind → a.kind ≠ .float →
      (a.min b = b.min a ∧ a.max b = b.max a) ∧
      (a.min b).min c = a.min (b.min c) ∧ (a.max b).max c = a.max (b.max c) := by
  refine ⟨fun a b => extremal, ?_⟩
  intro a b c hab hbc hfloat
  exact ⟨⟨follows_min.comm hab hfloat, follows_max.comm hab hfloat⟩,
    follows_min.assoc hab hbc hfloat, follows_max.assoc hab hbc hfloat⟩

/-- Next to a float an integer is rounded, and so does not exceed the result; texts are chosen among
without that. -/
theorem extremes_follow_order_rounded :
    ((integer 9007199254740993).IsFinite ∧ (float 9007199254740992.0).IsFinite ∧
      (integer 9007199254740993).compare? (float 9007199254740992.0) ≠ none ∧
      (integer 9007199254740993).AtMost
        ((integer 9007199254740993).max (float 9007199254740992.0))) ∧
    (string "b").kind = (string "a").kind ∧ (string "a").kind = (string "c").kind ∧
      (string "b").kind ≠ .float ∧ ((string "b").min (string "a")).min (string "c") =
        (string "b").min ((string "a").min (string "c")) := by
  have hinteger : (integer 9007199254740993).IsFinite := isFinite_of_kind (by decide)
  have hfloat : (float 9007199254740992.0).IsFinite := by
    intro x hx
    rw [← float.inj hx]
    decide
  have hdefined : (integer 9007199254740993).compare? (float 9007199254740992.0) ≠ none := by
    decide
  have hstrings : (string "b").kind ≠ .float := by decide
  obtain ⟨hpairs, hkind⟩ := extremes_follow_order
  refine ⟨⟨hinteger, hfloat, hdefined, ?_⟩, rfl, rfl, hstrings, ?_⟩
  · exact ((hpairs _ _ hinteger hfloat).atMost_max hdefined).1
  · exact (hkind (string "b") (string "a") (string "c") rfl rfl hstrings).2.1

end MooScript.Value
