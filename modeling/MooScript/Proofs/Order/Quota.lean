import MooScript.Proofs.Order.Neighbours

/-! The quota of ranges. A range is refused when there are too many values between its bounds, and
when it would pass the limit only by counting code points that are no characters. -/
namespace MooScript.Ordinal

variable {lo hi : Ordinal} {limit : Nat} {n : Int}

/-- The gap between characters lies between the two ordinals. -/
def Straddles (lo hi : Ordinal) : Prop := lo ≤ beforeGap ∧ afterGap ≤ hi

theorem straddles_of_vacant (hkind : lo.kind = hi.kind) (hlow : lo.position ≤ n)
    (hhigh : n ≤ hi.position) (h : Vacant lo.kind n) : Straddles lo hi := by
  obtain ⟨hcharacter, hn, hn'⟩ := h
  have hlo := lo.not_vacant_position
  have hhi := hi.not_vacant_position
  simp only [Vacant, ← hkind, hcharacter, true_and] at hlo hhi
  refine ⟨le_iff.mpr ⟨hcharacter, ?_⟩, le_iff.mpr ⟨hcharacter.symm.trans hkind, ?_⟩⟩
  · change lo.position ≤ 0xD7FF
    omega
  · change 0xE000 ≤ hi.position
    omega

theorem injOn_position (lo hi : Ordinal) : Set.InjOn position (Set.Icc lo hi) := by
  intro x hx y hy h
  have hkind : x.kind = y.kind := (le_iff.mp hx.1).1.symm.trans (le_iff.mp hy.1).1
  exact (position_inj hkind).mp h

/-- The ordinals between two of a kind stand at all positions between them but the vacant ones. -/
theorem image_position_Icc (hkind : lo.kind = hi.kind) : position '' Set.Icc lo hi =
    {n | n ∈ Set.Icc lo.position hi.position ∧ ¬ Vacant lo.kind n} := by
  ext n
  constructor
  · rintro ⟨x, ⟨hlow, hhigh⟩, rfl⟩
    obtain ⟨hx, hlow⟩ := le_iff.mp hlow
    exact ⟨⟨hlow, (le_iff.mp hhigh).2⟩, hx ▸ x.not_vacant_position⟩
  · rintro ⟨⟨hlow, hhigh⟩, hn⟩
    obtain ⟨x, hx, rfl⟩ := (exists_position_iff hkind hlow hhigh).mpr hn
    exact ⟨x, ⟨le_iff.mpr ⟨hx.symm, hlow⟩, le_iff.mpr ⟨hx.trans hkind, hhigh⟩⟩, rfl⟩

theorem ncard_Icc_position (lo hi : Ordinal) :
    (Set.Icc lo.position hi.position).ncard = lo.span hi := by
  rw [Set.ncard_eq_toFinset_card', Set.toFinset_Icc, Int.card_Icc, span]
  congr 1
  omega

theorem finite_Icc (hkind : lo.kind = hi.kind) : (Set.Icc lo hi).Finite := by
  refine Set.Finite.of_finite_image ?_ (injOn_position lo hi)
  rw [image_position_Icc hkind]
  exact (Set.finite_Icc lo.position hi.position).subset fun _ hn => hn.1

/-- Away from the gap there are as many values as positions. -/
theorem ncard_Icc (hkind : lo.kind = hi.kind) (h : ¬ Straddles lo hi) :
    (Set.Icc lo hi).ncard = lo.span hi := by
  have hnone : {n | n ∈ Set.Icc lo.position hi.position ∧ ¬ Vacant lo.kind n} =
      Set.Icc lo.position hi.position :=
    Set.sep_eq_self_iff_mem_true.mpr fun n hn hvacant =>
      h (straddles_of_vacant hkind hn.1 hn.2 hvacant)
  rw [← (injOn_position lo hi).ncard_image, image_position_Icc hkind, hnone, ncard_Icc_position]

/-- Over the gap there are fewer values than positions, by the size of the gap. -/
theorem ncard_Icc_of_straddles (h : Straddles lo hi) :
    (Set.Icc lo hi).ncard + 2048 = lo.span hi := by
  obtain ⟨hlow, hhigh⟩ := h
  obtain ⟨hkind, hlow⟩ := le_iff.mp hlow
  obtain ⟨hkind', hhigh⟩ := le_iff.mp hhigh
  have hcharacter : lo.kind = .character := hkind
  have htaken : {n | n ∈ Set.Icc lo.position hi.position ∧ ¬ Vacant lo.kind n} =
      Set.Icc lo.position hi.position \ Set.Ico 0xD800 0xE000 := by
    ext n
    simp only [Vacant, hcharacter, true_and, Set.mem_sdiff, Set.mem_Ico, Set.mem_ofPred_eq]
  have hgap : (Set.Ico 0xD800 0xE000 : Set ℤ) ⊆ Set.Icc lo.position hi.position := by
    rintro n ⟨hn, hn'⟩
    change lo.position ≤ 0xD7FF at hlow
    change 0xE000 ≤ hi.position at hhigh
    exact ⟨by omega, by omega⟩
  have hsize : (Set.Ico 0xD800 0xE000 : Set ℤ).ncard = 2048 := by
    rw [Set.ncard_eq_toFinset_card', Set.toFinset_Ico, Int.card_Ico]
    rfl
  have hsplit := Set.ncard_sdiff_add_ncard_of_subset hgap (Set.finite_Icc _ _)
  rw [hsize, ncard_Icc_position, ← htaken,
    ← image_position_Icc (hkind.trans hkind'), (injOn_position lo hi).ncard_image] at hsplit
  exact hsplit

theorem range_eq_quota_iff (hkind : lo.kind = hi.kind) :
    range lo.toValue hi.toValue limit = .error .quota ↔ limit < lo.span hi := by
  rw [range_toValue hkind]
  by_cases h : limit < lo.span hi
  · rw [if_pos h]
    exact iff_of_true rfl h
  · rw [if_neg h]
    exact iff_of_false (fun heq => by cases heq) h

/-- A range of one kind is refused exactly when more values than the limit lie between its bounds,
these included; but over the gap between characters, 2048 values are counted that there are not. -/
theorem range_quota (lo hi : Ordinal) (hkind : lo.kind = hi.kind) (limit : Nat) :
    (Set.Icc lo hi).Finite ∧
    (¬ Straddles lo hi →
      (range lo.toValue hi.toValue limit = .error .quota ↔ limit < (Set.Icc lo hi).ncard)) ∧
    (Straddles lo hi →
      (range lo.toValue hi.toValue limit = .error .quota ↔
        limit < (Set.Icc lo hi).ncard + 2048)) := by
  refine ⟨finite_Icc hkind, fun h => ?_, fun h => ?_⟩
  · rw [range_eq_quota_iff hkind, ncard_Icc hkind h]
  · rw [range_eq_quota_iff hkind, ncard_Icc_of_straddles h]

/-- All integers, and two characters that are neighbours. -/
theorem range_quota_extremes :
    let least := integer Int64.minValue
    let greatest := integer Int64.maxValue
    (Set.Icc least greatest).Finite ∧
    (range least.toValue greatest.toValue (2 ^ 64 - 1) = .error .quota ↔
      2 ^ 64 - 1 < (Set.Icc least greatest).ncard) ∧
    Straddles beforeGap afterGap ∧
    (range beforeGap.toValue afterGap.toValue 2049 = .error .quota ↔
      2049 < (Set.Icc beforeGap afterGap).ncard + 2048) := by
  intro least greatest
  have hkind : least.kind = greatest.kind := rfl
  have hplain : ¬ Straddles least greatest := fun h => by cases (le_iff.mp h.1).1
  have hgap : Straddles beforeGap afterGap := ⟨le_rfl, le_rfl⟩
  obtain ⟨hfinite, hexact, _⟩ := range_quota least greatest hkind (2 ^ 64 - 1)
  exact ⟨hfinite, hexact hplain, hgap, (range_quota beforeGap afterGap rfl 2049).2.2 hgap⟩

/-- Two values are refused although the limit is two. -/
theorem range_quota_miscounts :
    range beforeGap.toValue afterGap.toValue 2 = .error .quota ∧
      (Set.Icc beforeGap afterGap).ncard = 2 := by
  have hcount : (Set.Icc beforeGap afterGap).ncard + 2048 = 2 + 2048 :=
    ncard_Icc_of_straddles ⟨le_rfl, le_rfl⟩
  exact ⟨rfl, Nat.add_right_cancel hcount⟩

end MooScript.Ordinal
