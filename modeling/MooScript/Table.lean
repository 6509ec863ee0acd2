/-! Tables that keep their keys in the order in which they came. -/
namespace MooScript

/-- Entries of distinct keys, from the oldest to the newest. -/
structure Table (κ : Type) (α : Type) where
  entries : List (κ × α)
  nodup : (entries.map Prod.fst).Nodup

namespace Table

variable {κ α : Type}

def empty : Table κ α := ⟨[], .nil⟩

def keys (t : Table κ α) : List κ := t.entries.map Prod.fst

variable [DecidableEq κ]

def get? (t : Table κ α) (k : κ) : Option α := t.entries.lookup k

def contains (t : Table κ α) (k : κ) : Bool := decide (k ∈ t.keys)

theorem keys_replace (entries : List (κ × α)) (k : κ) (a : α) :
    (entries.map fun e => if e.1 = k then (e.1, a) else e).map Prod.fst =
      entries.map Prod.fst := by
  rw [List.map_map]
  apply List.map_congr_left
  intro e _
  simp only [Function.comp]
  split <;> rfl

/-- Replaces the value of a key in its place, or puts a new key last. -/
def insert (t : Table κ α) (k : κ) (a : α) : Table κ α :=
  if h : k ∈ t.keys then
    ⟨t.entries.map fun e => if e.1 = k then (e.1, a) else e, by
      rw [keys_replace]
      exact t.nodup⟩
  else
    ⟨t.entries ++ [(k, a)], by
      rw [List.map_append, List.nodup_append]
      refine ⟨t.nodup, by simp, ?_⟩
      intro x hx y hy
      simp only [List.map_cons, List.map_nil, List.mem_singleton] at hy
      rintro rfl
      exact h (hy ▸ hx)⟩

def erase (t : Table κ α) (k : κ) : Table κ α :=
  ⟨t.entries.filter fun e => e.1 ≠ k, t.nodup.sublist (List.filter_sublist.map _)⟩

def ofList (entries : List (κ × α)) : Table κ α :=
  entries.foldl (fun t e => t.insert e.1 e.2) empty

end Table
end MooScript
