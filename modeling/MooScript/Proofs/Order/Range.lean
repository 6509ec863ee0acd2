import MooScript.Evaluation
import MooScript.Proofs.Decimal.Digits
import MooScript.Proofs.Order.Operators
import MooScript.Proofs.Store.Refinement

/-! Ranges. A list of all values from one to another holds these and no others, from the lowest to
the highest, up to the ends of their kind; of objects it holds those that are live. -/
namespace MooScript

theorem Value.ofCodePoint?_eq_some_iff {n : Int} {v : Value} :
    ofCodePoint? n = some v ↔ ∃ c : Char, v = character c ∧ (c.toNat : ℤ) = n := by
  constructor
  · intro h
    obtain ⟨⟨hnonneg, hvalid⟩, h⟩ := Option.ite_none_right_eq_some.mp h
    refine ⟨_, (Option.some.inj h).symm, ?_⟩
    rw [Char.toNat_ofNat, if_pos hvalid, Int.toNat_of_nonneg hnonneg]
  · rintro ⟨c, rfl, rfl⟩
    have hvalid : (c.toNat : ℤ).toNat.isValidChar := c.valid
    rw [ofCodePoint?, if_pos ⟨Int.natCast_nonneg _, hvalid⟩, Int.toNat_natCast,
      Char.ofNat_toNat]

namespace Ordinal

variable {x y lo hi : Ordinal} {k : ValueKind} {n : Int} {count limit : Nat} {v : Value}
  {items : List Value}

/-- What stands at a position of a kind, if anything, is the ordinal with that position. -/
theorem valueAt?_eq_some_iff :
    valueAt? k n = some v ↔ ∃ x : Ordinal, v = x.toValue ∧ x.kind = k ∧ x.position = n := by
  constructor
  · intro h
    cases k with
    | boolean =>
      simp only [valueAt?] at h
      split at h
      next hn => exact ⟨.boolean false, (Option.some.inj h).symm, rfl, hn.symm⟩
      next =>
        obtain ⟨hn, h⟩ := Option.ite_none_right_eq_some.mp h
        exact ⟨.boolean true, (Option.some.inj h).symm, rfl, hn.symm⟩
    | character =>
      obtain ⟨c, rfl, hc⟩ := Value.ofCodePoint?_eq_some_iff.mp h
      exact ⟨.character c, rfl, rfl, hc⟩
    | integer =>
      obtain ⟨m, hm, rfl⟩ := Option.map_eq_some_iff.mp h
      exact ⟨.integer m, rfl, rfl, Word.int64?_eq_some_iff.mp hm⟩
    | object =>
      obtain ⟨id, hid, rfl⟩ := Option.map_eq_some_iff.mp h
      exact ⟨.object id, rfl, rfl, Word.int32?_eq_some_iff.mp hid⟩
    | _ => cases h
  · rintro ⟨x, rfl, rfl, rfl⟩
    cases x with
    | boolean b => cases b <;> rfl
    | character c => exact Value.ofCodePoint?_eq_some_iff.mpr ⟨c, rfl, rfl⟩
    | integer m => exact Option.map_eq_some_iff.mpr ⟨m, Word.int64?_eq_some_iff.mpr rfl, rfl⟩
    | object id => exact Option.map_eq_some_iff.mpr ⟨id, Word.int32?_eq_some_iff.mpr rfl, rfl⟩

/-- At most as large, of one kind. -/
def AtMost (x y : Ordinal) : Prop := ∃ o, x.compare? y = some o ∧ o.isLE = true

theorem atMost_iff : x.AtMost y ↔ x.kind = y.kind ∧ x.position ≤ y.position := by
  constructor
  · rintro ⟨o, h, ho⟩
    obtain ⟨hkind, h⟩ := Option.ite_none_right_eq_some.mp h
    rw [← Option.some.inj h] at ho
    exact ⟨hkind, Int.isLE_compare.mp ho⟩
  · rintro ⟨hkind, hle⟩
    exact ⟨_, compare?_of_kind hkind, Int.isLE_compare.mpr hle⟩

theorem mem_run : v ∈ run k n count ↔ ∃ x : Ordinal,
    v = x.toValue ∧ x.kind = k ∧ n ≤ x.position ∧ x.position < n + count := by
  simp only [run, List.mem_filterMap, List.mem_range, valueAt?_eq_some_iff]
  constructor
  · rintro ⟨i, hi, x, hv, hk, hposition⟩
    exact ⟨x, hv, hk, by omega, by omega⟩
  · rintro ⟨x, hv, hk, hlow, hhigh⟩
    exact ⟨(x.position - n).toNat, by omega, x, hv, hk, by omega⟩

theorem pairwise_run : (run k n count).Pairwise fun v w => v.compare? w = some .lt := by
  refine List.pairwise_lt_range.filterMap _ ?_
  intro i j hij v hv w hw
  obtain ⟨x, rfl, hx, hi⟩ := valueAt?_eq_some_iff.mp hv
  obtain ⟨y, rfl, hy, hj⟩ := valueAt?_eq_some_iff.mp hw
  rw [Value.compare?_ordinal, compare?_of_kind (hx.trans hy.symm), hi, hj, Option.some.injEq,
    compare_lt_iff_lt]
  omega

theorem length_run_le : (run k n count).length ≤ count :=
  (List.length_filterMap_le _ _).trans_eq List.length_range

/-- How many positions there are from one ordinal to another. -/
def span (lo hi : Ordinal) : Nat := (hi.position - lo.position + 1).toNat

/-- The values from one ordinal to another, without any limit. -/
structure Spans (lo hi : Ordinal) (items : List Value) : Prop where
  mem_iff : ∀ v, v ∈ items ↔ ∃ x : Ordinal, v = x.toValue ∧ lo.AtMost x ∧ x.AtMost hi
  ascending : items.Pairwise fun v w => v.compare? w = some .lt
  nodup : items.Nodup
  length_le : items.length ≤ lo.span hi
  empty : hi.compare? lo = some .lt → items = []

theorem span_eq_zero (h : hi.compare? lo = some .lt) : lo.span hi = 0 := by
  obtain ⟨_, h⟩ := Option.ite_none_right_eq_some.mp h
  have hlt : hi.position < lo.position := compare_lt_iff_lt.mp (Option.some.inj h)
  unfold span
  omega

theorem spans_run (hkind : lo.kind = hi.kind) :
    Spans lo hi (run lo.kind lo.position (lo.span hi)) := by
  constructor
  case mem_iff =>
    intro v
    rw [mem_run]
    refine exists_congr fun x => and_congr_right fun _ => ?_
    rw [atMost_iff, atMost_iff, ← hkind, eq_comm (a := x.kind)]
    unfold span
    constructor
    · rintro ⟨hk, hlow, hhigh⟩
      exact ⟨⟨hk, hlow⟩, hk, by omega⟩
    · rintro ⟨⟨hk, hlow⟩, _, hhigh⟩
      exact ⟨hk, hlow, by omega⟩
  case ascending => exact pairwise_run
  case nodup =>
    refine pairwise_run.imp ?_
    rintro v _ hlt rfl
    have hswap := Value.compare?_swap v v
    rw [hlt] at hswap
    cases hswap
  case length_le => exact length_run_le
  case empty =>
    intro h
    rw [span_eq_zero h]
    rfl

theorem ordinal?_toValue (x : Ordinal) : x.toValue.ordinal? = some x := by
  cases x <;> rfl

theorem toValue_inj (h : x.toValue = y.toValue) : x = y :=
  Option.some.inj (by rw [← ordinal?_toValue, h, ordinal?_toValue])

theorem range_toValue (hkind : lo.kind = hi.kind) :
    range lo.toValue hi.toValue limit =
      if limit < lo.span hi then .error .quota
      else .list (run lo.kind lo.position (lo.span hi)) := by
  simp only [range, ordinal?_toValue, hkind, ne_eq, not_true_eq_false, if_false]
  rfl

/-- Where a list of all values is not too long, it is the result. -/
theorem range_cases (hkind : lo.kind = hi.kind) (limit : Nat) :
    (limit < lo.span hi ∧ range lo.toValue hi.toValue limit = .error .quota) ∨
    ∃ items, range lo.toValue hi.toValue limit = .list items ∧ Spans lo hi items ∧
      items.length ≤ limit := by
  have hspans := spans_run hkind
  rw [range_toValue hkind]
  by_cases h : limit < lo.span hi
  · rw [if_pos h]
    exact .inl ⟨h, rfl⟩
  · rw [if_neg h]
    exact .inr ⟨_, rfl, hspans, hspans.length_le.trans (Nat.not_lt.mp h)⟩

theorem range_of_not_ordinals {a b : Value} (h : ¬ (a.kind ∈ ValueKind.ordinals ∧ a.kind = b.kind))
    (limit : Nat) : range a b limit = .error .type := by
  unfold range
  split
  next x y hx hy =>
    obtain ⟨ha, hxa⟩ := Value.kind_of_ordinal? hx
    obtain ⟨_, hyb⟩ := Value.kind_of_ordinal? hy
    exact if_pos fun hkind => h ⟨ha, by rw [← hxa, hkind, hyb]⟩
  next => rfl

end Ordinal

variable {host : Host} {first last : Expr} {token : Token} {m m₁ m₂ : Machine} {i j : ObjectId}
  {a b : Value} {items : List Value} {ops : List Store.Operation}

/-- Evaluation keeps all items of a range but the objects that are not valid. -/
theorem Action.range_of_list (h : Ordinal.range a b host.maxRangeLength = .list items) :
    ∃ kept : List Value, (range host a b).run m = (.ok (.list kept), m) ∧ kept.Sublist items ∧
      ∀ v, v ∈ kept ↔ v ∈ items ∧ ∀ id, v = .object id → m.store.isValid id = true := by
  rw [range, Action.run_bind]
  simp only [h]
  refine ⟨_, rfl, List.filter_sublist, ?_⟩
  intro v
  rw [List.mem_filter]
  refine and_congr_right fun _ => ?_
  cases v <;> simp

theorem Action.range_of_error {code : ErrorCode}
    (h : Ordinal.range a b host.maxRangeLength = .error code) :
    (range host a b).run m = (.ok (.error code), m) := by
  rw [range, Action.run_bind]
  simp only [h]
  rfl

/-- A range of which the bounds are objects is made of these, once both bounds are evaluated. -/
theorem Expr.eval_range_objects (hfirst : (first.eval host).run m = (.ok (.object i), m₁))
    (hlast : (last.eval host).run m₁ = (.ok (.object j), m₂)) :
    ((range first last token).eval host).run m =
      (Action.range host (.object i) (.object j)).run m₂ := by
  rw [eval, Action.run_bind, hfirst]
  change (((last.eval host) >>= _) : Action Value).run m₁ = _
  rw [Action.run_bind, hlast]
  rfl

namespace Ordinal

theorem object_atMost_iff {x : Ordinal} : (object i).AtMost x ∧ x.AtMost (object j) ↔
    ∃ id, x = object id ∧ i ≤ id ∧ id ≤ j := by
  rw [atMost_iff, atMost_iff]
  constructor
  · rintro ⟨⟨hkind, hlow⟩, _, hhigh⟩
    cases x with
    | object id => exact ⟨id, rfl, Int32.le_iff_toInt_le.mpr hlow, Int32.le_iff_toInt_le.mpr hhigh⟩
    | _ => cases hkind
  · rintro ⟨id, rfl, hlow, hhigh⟩
    exact ⟨⟨rfl, Int32.le_iff_toInt_le.mp hlow⟩, rfl, Int32.le_iff_toInt_le.mp hhigh⟩

/-- Among the items of a range of objects those that are kept are the live ones, in order. -/
theorem Spans.live {kept : List Value} (hspans : Spans (object i) (object j) items)
    (hsublist : kept.Sublist items) (hstore : m.store = Store.after ops)
    (hkept : ∀ v, v ∈ kept ↔ v ∈ items ∧ ∀ id, v = .object id → m.store.isValid id = true) :
    ∃ ids : List ObjectId, kept = ids.map .object ∧ ids.Pairwise (· < ·) ∧
      ∀ id, id ∈ ids ↔ i ≤ id ∧ id ≤ j ∧ (Store.history ops).isLive id = true := by
  have hmem (v : Value) : v ∈ kept ↔ ∃ id, v = .object id ∧ i ≤ id ∧ id ≤ j ∧
      (Store.history ops).isLive id = true := by
    rw [hkept, hspans.mem_iff]
    simp only [object_atMost_iff, hstore, (Store.tracks_after ops).live]
    constructor
    · rintro ⟨⟨_, rfl, id, rfl, hlow, hhigh⟩, hlive⟩
      exact ⟨id, rfl, hlow, hhigh, hlive id rfl⟩
    · rintro ⟨id, rfl, hlow, hhigh, hlive⟩
      refine ⟨⟨_, rfl, id, rfl, hlow, hhigh⟩, ?_⟩
      rintro _ ⟨⟩
      exact hlive
  obtain ⟨ids, rfl⟩ : ∃ ids : List ObjectId, ids.map Value.object = kept := by
    refine (Set.range_list_map Value.object).ge fun v hv => ?_
    obtain ⟨id, rfl, _⟩ := (hmem v).mp hv
    exact ⟨id, rfl⟩
  refine ⟨ids, rfl, ?_, ?_⟩
  · refine (List.pairwise_map.mp (hspans.ascending.sublist hsublist)).imp ?_
    intro id id' hlt
    exact Int32.lt_iff_toInt_lt.mpr (compare_lt_iff_lt.mp (Option.some.inj hlt))
  · intro id
    have hobject := hmem (.object id)
    rw [List.mem_map_of_injective fun _ _ => Value.object.inj] at hobject
    simpa using hobject

/-- Ordinals that are not of one kind, and other values, make no range. Two ordinals of one kind
make the list of all that lie between them, from the lowest to the highest, unless there are more
positions between them than the limit allows. A range whose bounds evaluate to objects, in a store
that any operations have led to, has the objects between them that are live. -/
theorem range_contents :
    (∀ (a b : Value) (limit : Nat), ¬ (a.kind ∈ ValueKind.ordinals ∧ a.kind = b.kind) →
      range a b limit = .error .type) ∧
    (∀ (a b : Value) (limit : Nat), a.kind ∈ ValueKind.ordinals → a.kind = b.kind →
      ∃ lo hi : Ordinal, a = lo.toValue ∧ b = hi.toValue ∧
        ((limit < lo.span hi ∧ range a b limit = .error .quota) ∨
        ∃ items, range a b limit = .list items ∧ Spans lo hi items ∧ items.length ≤ limit)) ∧
    ∀ (host : Host) (first last : Expr) (token : Token) (m m₁ m₂ : Machine) (i j : ObjectId)
      (ops : List Store.Operation), (first.eval host).run m = (.ok (.object i), m₁) →
      (last.eval host).run m₁ = (.ok (.object j), m₂) → m₂.store = Store.after ops →
      (host.maxRangeLength < (object i).span (object j) ∧
        ((Expr.range first last token).eval host).run m = (.ok (.error .quota), m₂)) ∨
      ∃ ids : List ObjectId,
        ((Expr.range first last token).eval host).run m = (.ok (.list (ids.map .object)), m₂) ∧
        ids.Pairwise (· < ·) ∧
        ∀ id, id ∈ ids ↔ i ≤ id ∧ id ≤ j ∧ (Store.history ops).isLive id = true := by
  refine ⟨fun a b limit h => range_of_not_ordinals h limit, ?_, ?_⟩
  · intro a b limit ha hkind
    obtain ⟨lo, rfl⟩ := Value.exists_ordinal ha
    obtain ⟨hi, rfl⟩ := Value.exists_ordinal (hkind ▸ ha)
    rw [kind_toValue, kind_toValue] at hkind
    exact ⟨lo, hi, rfl, rfl, range_cases hkind limit⟩
  · intro host first last token m m₁ m₂ i j ops hfirst hlast hstore
    rw [Expr.eval_range_objects hfirst hlast]
    have hkind : (object i).kind = (object j).kind := rfl
    rcases range_cases hkind host.maxRangeLength with
      ⟨hlimit, hquota⟩ | ⟨items, hlist, hspans, _⟩
    · exact .inl ⟨hlimit, Action.range_of_error hquota⟩
    · obtain ⟨kept, hrun, hsublist, hkept⟩ := Action.range_of_list (m := m₂) hlist
      obtain ⟨ids, rfl, hascending, hmem⟩ := hspans.live hsublist hstore hkept
      exact .inr ⟨ids, hrun, hascending, hmem⟩

/-- Texts make no range, the last two integers make one, and of three objects those that are left
do. -/
theorem range_contents_recycled :
    range (.string "a") (.string "b") 2 = .error .type ∧
    (∃ items, range (.integer (Int64.maxValue - 1)) (.integer Int64.maxValue) 2 = .list items ∧
      .integer Int64.maxValue ∈ items ∧ items.length ≤ 2) ∧
    let t : Token := .endOfInput none
    let m : Machine := ⟨⟨[], .empty⟩, .after [.create, .create, .create, .recycle 1]⟩
    ∃ ids : List ObjectId,
      ((Expr.range (.literal (.object 0) t) (.literal (.object 2) t) t).eval ⟨3, ⟨.empty⟩⟩).run m =
        (.ok (.list (ids.map .object)), m) ∧ 0 ∈ ids ∧ 1 ∉ ids ∧ 2 ∈ ids := by
  obtain ⟨htype, hordinals, hobjects⟩ := range_contents
  refine ⟨htype _ _ 2 (by decide), ?_, ?_⟩
  · have hkind (n : Int64) : (Value.integer n).kind = .integer := rfl
    obtain ⟨lo, hi, hlo, hhi, hrange⟩ := hordinals (.integer (Int64.maxValue - 1))
      (.integer Int64.maxValue) 2 (by decide) ((hkind _).trans (hkind _).symm)
    obtain rfl := toValue_inj (x := integer (Int64.maxValue - 1)) hlo
    obtain rfl := toValue_inj (x := integer Int64.maxValue) hhi
    rcases hrange with ⟨hlimit, _⟩ | ⟨items, hitems, hspans, hlength⟩
    · exact absurd hlimit (by decide)
    · refine ⟨items, hitems, (hspans.mem_iff _).mpr ?_, hlength⟩
      exact ⟨integer Int64.maxValue, rfl, ⟨.lt, by decide, rfl⟩, ⟨.eq, by decide, rfl⟩⟩
  · intro t m
    have hliteral (id : ObjectId) :
        ((Expr.literal (.object id) t).eval ⟨3, ⟨.empty⟩⟩).run m = (.ok (.object id), m) := by
      rw [Expr.eval]
      rfl
    rcases hobjects _ _ _ t m m m 0 2 _ (hliteral 0) (hliteral 2) rfl with
      ⟨hlimit, _⟩ | ⟨ids, hrun, _, hmem⟩
    · exact absurd hlimit (by decide)
    · refine ⟨ids, hrun, ?_, ?_, ?_⟩
      · rw [hmem]
        decide
      · rw [hmem]
        decide
      · rw [hmem]
        decide

end Ordinal
end MooScript
