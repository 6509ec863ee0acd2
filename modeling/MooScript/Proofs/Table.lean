import Mathlib
import MooScript.Table

/-! Laws of tables: which entries a change leaves, and what a key then finds. -/
namespace MooScript.Table

variable {κ α : Type} {t : Table κ α} {k k' : κ} {a : α} {e : κ × α}

theorem mem_keys_iff : k ∈ t.keys ↔ ∃ a, (k, a) ∈ t.entries := by
  simp only [keys, List.mem_map, Prod.exists, exists_and_right, exists_eq_right]

def values (t : Table κ α) : List α := t.entries.map Prod.snd

theorem mem_values_iff : a ∈ t.values ↔ ∃ k, (k, a) ∈ t.entries := by
  simp only [values, List.mem_map, Prod.exists, exists_eq_right]

variable [DecidableEq κ]

theorem contains_iff : t.contains k = true ↔ k ∈ t.keys := decide_eq_true_iff

theorem get?_eq_some_iff : t.get? k = some a ↔ (k, a) ∈ t.entries := by
  rw [get?, List.lookup_eq_some_iff]
  constructor
  · rintro ⟨before, behind, heq, _⟩
    rw [heq]
    exact List.mem_append_right before List.mem_cons_self
  · intro h
    obtain ⟨before, behind, heq⟩ := List.append_of_mem h
    refine ⟨before, behind, heq, fun p hp => bne_iff_ne.mpr ?_⟩
    have hnodup := t.nodup
    rw [heq, List.map_append, List.nodup_append] at hnodup
    exact (hnodup.2.2 p.1 (List.mem_map_of_mem hp) k List.mem_cons_self).symm

theorem get?_eq_none_iff : t.get? k = none ↔ k ∉ t.keys := by
  simp only [Option.eq_none_iff_forall_ne_some, ne_eq, get?_eq_some_iff, mem_keys_iff, not_exists]

theorem exists_get?_iff : (∃ a, t.get? k = some a) ↔ k ∈ t.keys := by
  simp only [get?_eq_some_iff, mem_keys_iff]

theorem contains_eq : t.contains k = (t.get? k).isSome := by
  rw [Bool.eq_iff_iff, contains_iff, ← exists_get?_iff, Option.isSome_iff_exists]

theorem entries_insert_of_not_mem (h : k ∉ t.keys) (a : α) :
    (t.insert k a).entries = t.entries ++ [(k, a)] := by
  rw [insert, dif_neg h]

theorem mem_entries_insert : e ∈ (t.insert k a).entries ↔
    e = (k, a) ∨ e.1 ≠ k ∧ e ∈ t.entries := by
  by_cases hk : k ∈ t.keys
  · rw [insert, dif_pos hk, List.mem_map]
    constructor
    · rintro ⟨e', he', rfl⟩
      by_cases hkey : e'.1 = k
      · left
        rw [if_pos hkey, hkey]
      · right
        rw [if_neg hkey]
        exact ⟨hkey, he'⟩
    · rintro (rfl | ⟨hkey, he⟩)
      · obtain ⟨b, hb⟩ := mem_keys_iff.mp hk
        exact ⟨(k, b), hb, if_pos rfl⟩
      · exact ⟨e, he, if_neg hkey⟩
  · rw [entries_insert_of_not_mem hk, List.mem_append, List.mem_singleton, or_comm]
    refine or_congr_right (iff_and_self.mpr ?_)
    rintro he rfl
    exact hk (List.mem_map_of_mem he)

theorem get?_insert : (t.insert k a).get? k' = if k' = k then some a else t.get? k' := by
  refine Option.ext fun b => ?_
  rw [get?_eq_some_iff, mem_entries_insert]
  by_cases h : k' = k
  · simp [h, eq_comm]
  · simp [h, get?_eq_some_iff]

theorem mem_entries_erase : e ∈ (t.erase k).entries ↔ e ∈ t.entries ∧ e.1 ≠ k := by
  rw [erase, List.mem_filter, decide_eq_true_iff]

theorem get?_erase : (t.erase k).get? k' = if k' = k then none else t.get? k' := by
  refine Option.ext fun b => ?_
  rw [get?_eq_some_iff, mem_entries_erase]
  by_cases h : k' = k
  · simp [h]
  · simp [h, get?_eq_some_iff]

theorem erase_erase : (t.erase k).erase k = t.erase k := by
  simp only [erase, List.filter_filter, Bool.and_self]

theorem erase_insert : (t.insert k a).erase k = t.erase k := by
  rw [insert]
  split
  next =>
    -- What is replaced has the key, and goes either way.
    have hkept (e : κ × α) : (if e.1 = k then (e.1, a) else e).1 = e.1 := by split <;> rfl
    simp only [erase, mk.injEq, List.filter_map, Function.comp_def, hkept]
    refine (List.map_congr_left fun e he => ?_).trans (List.map_id _)
    exact if_neg (of_decide_eq_true (List.mem_filter.mp he).2)
  next => simp [erase, List.filter_append]

theorem mem_values_of_get? (h : t.get? k = some a) : a ∈ t.values :=
  mem_values_iff.mpr ⟨k, get?_eq_some_iff.mp h⟩

theorem forall_mem_values_insert {P : α → Prop} (h : ∀ b ∈ t.values, P b) (ha : P a) :
    ∀ b ∈ (t.insert k a).values, P b := by
  intro b hb
  obtain ⟨k', hentry⟩ := mem_values_iff.mp hb
  rcases mem_entries_insert.mp hentry with heq | ⟨_, hold⟩
  · cases heq
    exact ha
  · exact h b (mem_values_iff.mpr ⟨k', hold⟩)

theorem forall_mem_values_erase {P : α → Prop} (h : ∀ b ∈ t.values, P b) :
    ∀ b ∈ (t.erase k).values, P b := by
  intro b hb
  obtain ⟨k', hentry⟩ := mem_values_iff.mp hb
  exact h b (mem_values_iff.mpr ⟨k', (mem_entries_erase.mp hentry).1⟩)

theorem mem_entries_ofList {entries : List (κ × α)} (h : e ∈ (ofList entries).entries) :
    e ∈ entries := by
  suffices hfold : ∀ t : Table κ α,
      e ∈ (entries.foldl (fun t e => t.insert e.1 e.2) t).entries → e ∈ t.entries ∨ e ∈ entries by
    exact (hfold empty h).resolve_left (List.not_mem_nil)
  clear h
  induction entries with
  | nil => exact fun t h => .inl h
  | cons first entries ih =>
    intro t h
    rcases ih (t.insert first.1 first.2) h with hinsert | hentries
    · rcases mem_entries_insert.mp hinsert with rfl | ⟨_, hold⟩
      · exact .inr List.mem_cons_self
      · exact .inl hold
    · exact .inr (List.mem_cons_of_mem first hentries)

/-- Entries of distinct keys are all kept, in their order. -/
theorem entries_ofList {entries : List (κ × α)} (h : (entries.map Prod.fst).Nodup) :
    (ofList entries).entries = entries := by
  suffices hfold : ∀ t : Table κ α, (∀ e ∈ entries, e.1 ∉ t.keys) →
      (entries.foldl (fun t e => t.insert e.1 e.2) t).entries = t.entries ++ entries by
    exact hfold empty fun e _ => List.not_mem_nil
  induction entries with
  | nil => exact fun t _ => (List.append_nil t.entries).symm
  | cons first entries ih =>
    intro t hnew
    obtain ⟨hfirst, hrest⟩ := List.forall_mem_cons.mp hnew
    obtain ⟨hnotMem, hnodup⟩ := List.nodup_cons.mp h
    have hentries := entries_insert_of_not_mem hfirst first.2
    rw [List.foldl_cons, ih hnodup, hentries, List.append_assoc]
    · rfl
    · intro e he hkey
      rw [keys, hentries, List.map_append, List.mem_append] at hkey
      rcases hkey with hkey | hkey
      · exact hrest e he hkey
      · rw [List.map_singleton, List.mem_singleton] at hkey
        exact hnotMem (hkey ▸ List.mem_map_of_mem he)

theorem get?_ofList {entries : List (κ × α)} (h : (entries.map Prod.fst).Nodup) :
    (ofList entries).get? k = some a ↔ (k, a) ∈ entries := by
  rw [get?_eq_some_iff, entries_ofList h]

end MooScript.Table
