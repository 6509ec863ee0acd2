import Mathlib
import MooScript.Proofs.Clean.Value

/-! Sequences: a string does as the list of its characters, and parts of a sequence fit together. -/
namespace MooScript

/-- A string and the list of its characters, or one error twice. -/
inductive Value.Spells : Value → Value → Prop
  | string (s : String) : Spells (string s) (list (s.toList.map character))
  | error (code : ErrorCode) : Spells (error code) (error code)

theorem Value.Spells.of_toList {s : String} {items : List Value}
    (h : s.toList.map character = items) : Spells (.string s) (list items) :=
  h ▸ .string s

namespace Aggregate

variable {a : Aggregate} {start mid stop : ℕ}

def toValue : Aggregate → Value
  | list items => .list items
  | string s => .string s

@[simp] theorem aggregate?_toValue (a : Aggregate) : a.toValue.aggregate? = some a := by
  cases a <;> rfl

theorem length_eq (a : Aggregate) : a.length = a.items.length := by
  cases a with
  | list items => rfl
  | string s => rw [length, items, List.length_map, String.length_toList]

/-! ### Parts -/

/-- The sequence of the same kind that a slice is. -/
def part (a : Aggregate) (start stop : ℕ) : Aggregate :=
  match a with
  | list items => list ((items.drop start).take (stop - start))
  | string s => string (String.ofList ((s.toList.drop start).take (stop - start)))

theorem slice_of_le (hstart : start ≤ stop) (hstop : stop ≤ a.length) :
    a.slice start stop = (a.part start stop).toValue := by
  refine (if_neg (by omega)).trans ?_
  cases a <;> rfl

theorem slice_eq_error_iff :
    a.slice start stop = .error .range ↔ stop < start ∨ a.length < stop := by
  by_cases h : stop < start ∨ a.length < stop
  · exact iff_of_true (if_pos h) h
  · rw [slice_of_le (by omega) (by omega)]
    refine iff_of_false (fun heq => ?_) h
    cases a <;> cases heq

theorem items_part (a : Aggregate) (start stop : ℕ) :
    (a.part start stop).items = (a.items.drop start).take (stop - start) := by
  cases a with
  | list items => rfl
  | string s => rw [part, items, items, String.toList_ofList, List.map_take, List.map_drop]

theorem take_drop_append {α : Type} (xs : List α) (hmid : start ≤ mid) (hstop : mid ≤ stop) :
    (xs.drop start).take (mid - start) ++ (xs.drop mid).take (stop - mid) =
      (xs.drop start).take (stop - start) := by
  have hlength : stop - start = (mid - start) + (stop - mid) := by omega
  have hdrop : xs.drop mid = (xs.drop start).drop (mid - start) := by
    rw [List.drop_drop, Nat.add_sub_cancel' hmid]
  rw [hlength, List.take_add, hdrop]

theorem concat_part (a : Aggregate) (hmid : start ≤ mid) (hstop : mid ≤ stop) :
    (a.part start mid).concat (a.part mid stop) = (a.part start stop).toValue := by
  cases a with
  | list items => exact congrArg Value.list (take_drop_append items hmid hstop)
  | string s =>
    rw [part, part, part, concat, toValue, ← String.ofList_append,
      take_drop_append s.toList hmid hstop]

theorem at_part {i : ℕ} (hi : i < stop - start) :
    (a.part start stop).at_ i = a.at_ (start + i) := by
  rw [at_eq, at_eq, items_part, List.getElem?_take_of_lt hi, List.getElem?_drop]

theorem at_part_of_le {i : ℕ} (hi : stop - start ≤ i) :
    (a.part start stop).at_ i = .error .range := by
  rw [at_eq, items_part, List.getElem?_take_eq_none hi]
  rfl

/-- Parts that meet join to the part from the one's start to the other's stop, and they hold the
elements that stand there. -/
structure Slices (a : Aggregate) : Prop where
  joined : ∀ start mid stop, start ≤ mid → mid ≤ stop → stop ≤ a.length →
    ∃ b c, (a.slice start mid).aggregate? = some b ∧ (a.slice mid stop).aggregate? = some c ∧
      b.concat c = a.slice start stop
  elements : ∀ start stop, start ≤ stop → stop ≤ a.length →
    ∃ b, (a.slice start stop).aggregate? = some b ∧
      (∀ i < stop - start, b.at_ i = a.at_ (start + i)) ∧
      ∀ i ≥ stop - start, b.at_ i = .error .range

theorem slices (a : Aggregate) : a.Slices where
  joined start mid stop hmid hstop hlength := by
    have hall := slice_of_le (hmid.trans hstop) hlength
    rw [slice_of_le hmid (hstop.trans hlength), slice_of_le hstop hlength, hall]
    exact ⟨_, _, aggregate?_toValue _, aggregate?_toValue _, a.concat_part hmid hstop⟩
  elements start stop hstop hlength := by
    rw [slice_of_le hstop hlength]
    exact ⟨_, aggregate?_toValue _, fun i => at_part, fun i => at_part_of_le⟩

/-! ### Lists of what there is -/

/-- What is seen of one sequence is seen of the other, but that strings are lists there. -/
structure Mirrors (a b : Aggregate) : Prop where
  length : a.length = b.length
  isEmpty : a.isEmpty = b.isEmpty
  items : a.items = b.items
  at_ : ∀ i, a.at_ i = b.at_ i
  first : a.first = b.first
  slice_error : ∀ start stop,
    a.slice start stop = .error .range ↔ b.slice start stop = .error .range
  slice : ∀ start stop, (a.slice start stop).Spells (b.slice start stop)
  rest : a.rest.Spells b.rest
  uncons : Option.Rel (fun p q => p.1 = q.1 ∧ p.2.Spells q.2) a.uncons? b.uncons?

/-- The elements of a sequence as a list. -/
def asList (a : Aggregate) : Aggregate := list a.items

theorem length_asList (a : Aggregate) : a.asList.length = a.length := a.length_eq.symm

theorem isEmpty_string (s : String) : (string s).asList.isEmpty = (string s).isEmpty := by
  rw [asList, isEmpty, isEmpty, items, List.isEmpty_map, Bool.eq_iff_iff, beq_iff_eq,
    List.isEmpty_iff, String.toList_eq_nil_iff]

theorem at_asList (a : Aggregate) (i : ℕ) : a.asList.at_ i = a.at_ i := (a.at_eq i).symm

theorem spells_part (s : String) (start stop : ℕ) :
    ((string s).part start stop).toValue.Spells ((string s).asList.part start stop).toValue :=
  .of_toList ((string s).items_part start stop)

theorem spells_slice (s : String) (start stop : ℕ) :
    ((string s).slice start stop).Spells ((string s).asList.slice start stop) := by
  have hlength := (string s).length_asList
  by_cases h : stop < start ∨ (string s).length < stop
  · rw [slice_eq_error_iff.mpr h, slice_eq_error_iff.mpr (hlength.symm ▸ h)]
    exact .error .range
  · rw [slice_of_le (by omega) (by omega), slice_of_le (by omega) (by omega)]
    exact spells_part s start stop

theorem spells_rest (s : String) : (string s).rest.Spells (string s).asList.rest := by
  rw [rest, rest, isEmpty_string, length_asList]
  cases (string s).isEmpty
  · exact spells_slice s 1 _
  · exact .error .range

theorem mirrors_asList (s : String) : (string s).Mirrors (string s).asList where
  length := (string s).length_asList.symm
  isEmpty := (isEmpty_string s).symm
  items := rfl
  at_ i := ((string s).at_asList i).symm
  first := ((string s).at_asList 0).symm
  slice_error start stop := by
    rw [slice_eq_error_iff, slice_eq_error_iff, length_asList]
  slice := spells_slice s
  rest := spells_rest s
  uncons := by
    rw [uncons?, uncons?, isEmpty_string]
    cases (string s).isEmpty
    · exact .some ⟨((string s).at_asList 0).symm, spells_rest s⟩
    · exact .none

theorem spells_concat (s t : String) :
    ((string s).concat (string t)).Spells ((string s).asList.concat (string t).asList) :=
  .of_toList (s := s ++ t) (by rw [String.toList_append, List.map_append]; rfl)

/-- A string is a sequence as the list of its characters is one, and the parts of any sequence make
it up. -/
theorem views_agree :
    (∀ s t : String, (string s).Mirrors (list (s.toList.map .character)) ∧
      ((string s).concat (string t)).Spells
        ((list (s.toList.map .character)).concat (list (t.toList.map .character)))) ∧
    ∀ a : Aggregate, a.Slices :=
  ⟨fun s t => ⟨mirrors_asList s, spells_concat s t⟩, slices⟩

/-- Characters of several bytes, cut between them and outside. -/
theorem views_agree_cut :
    ((string "é日z").slice 1 2 = .string "日" ∧
      ((string "é日z").slice 1 2).Spells
        ((list [.character 'é', .character '日', .character 'z']).slice 1 2)) ∧
    ((string "é日z").slice 2 4 = .error .range ↔
      (list [.character 'é', .character '日', .character 'z']).slice 2 4 = .error .range) ∧
    ∃ b c, ((string "é日z").slice 0 1).aggregate? = some b ∧
      ((string "é日z").slice 1 3).aggregate? = some c ∧ b.concat c = (string "é日z").slice 0 3 :=
  have hviews := (views_agree.1 "é日z" "").1
  ⟨⟨by cbv, hviews.slice 1 2⟩, hviews.slice_error 2 4,
    (views_agree.2 (string "é日z")).joined 0 1 3 (by decide) (by decide) (by decide)⟩

end Aggregate
end MooScript
