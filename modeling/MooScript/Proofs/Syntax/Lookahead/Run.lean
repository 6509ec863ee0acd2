import MooScript.Proofs.Syntax.Completeness.Tier

/-! The rules as runs: what they read and leave, without the proof that it is less. -/
namespace MooScript.Grammar

open Reading

variable {α β : Type}

/-- What is read off token lists, each with the token that ends the input behind it. -/
abbrev Run (α : Type) := Token → List Token → Except SyntaxError (α × List Token)

namespace Run

def ofRule (r : Token → (ts : List Token) → Rule α ts) : Run α := fun finish ts =>
  (r finish ts).outcome

def ofTail (r : Token → (ts : List Token) → Tail α ts) : Run α := fun finish ts =>
  (r finish ts).outcome

def map (F : Run α) (f : α → β) : Run β := fun finish ts =>
  (F finish ts).map fun p => (f p.1, p.2)

def bind (F : Run α) (G : α → Run β) : Run β := fun finish ts =>
  F finish ts >>= fun p => G p.1 finish p.2

/-- The run behind tokens that are read already. -/
def behind (used : List Token) (F : Run α) : Run α := fun finish ts => F finish (used ++ ts)

variable {F : Run α} {G : α → Run β} {a : α} {b : β} {finish : Token} {ts rest : List Token}
  {e : SyntaxError}

theorem bind_eq_ok_iff : F.bind G finish ts = .ok (b, rest) ↔
    ∃ a mid, F finish ts = .ok (a, mid) ∧ G a finish mid = .ok (b, rest) := by
  rw [bind]
  cases F finish ts with
  | error e =>
    refine ⟨fun h => ?_, fun ⟨_, _, h, _⟩ => ?_⟩
    · cases h
    · cases h
  | ok p =>
    refine ⟨fun h => ⟨p.1, p.2, rfl, h⟩, fun ⟨_, _, h, hg⟩ => ?_⟩
    cases h
    exact hg

theorem map_eq_ok_iff {f : α → β} :
    F.map f finish ts = .ok (b, rest) ↔ ∃ a, F finish ts = .ok (a, rest) ∧ f a = b := by
  rw [map]
  cases F finish ts with
  | error e =>
    refine ⟨fun h => ?_, fun ⟨_, h, _⟩ => ?_⟩
    · cases h
    · cases h
  | ok p =>
    refine ⟨fun h => ?_, fun ⟨_, h, hf⟩ => ?_⟩
    · cases h
      exact ⟨p.1, rfl, rfl⟩
    · cases h
      cases hf
      rfl

theorem bind_of_ok (h : F finish ts = .ok (a, rest)) : F.bind G finish ts = G a finish rest := by
  rw [bind, h]
  rfl

theorem bind_of_error (h : F finish ts = .error e) : F.bind G finish ts = .error e := by
  rw [bind, h]
  rfl

theorem map_of_ok {f : α → β} (h : F finish ts = .ok (a, rest)) :
    F.map f finish ts = .ok (f a, rest) := by
  rw [map, h]
  rfl

theorem map_of_error {f : α → β} (h : F finish ts = .error e) :
    F.map f finish ts = .error e := by
  rw [map, h]
  rfl

/-- Some list is read as `a`. -/
def Gives (F : Run α) (a : α) : Prop := ∃ finish ts rest, F finish ts = .ok (a, rest)

/-- At least so many tokens are read. -/
def Takes (n : Nat) (F : Run α) : Prop :=
  ∀ ⦃finish ts a rest⦄, F finish ts = .ok (a, rest) → rest.length + n ≤ ts.length

theorem takes_ofRule (r : Token → (ts : List Token) → Rule α ts) : Takes 1 (ofRule r) :=
  fun _ _ _ _ h => length_lt_of_outcome h

theorem takes_ofTail (r : Token → (ts : List Token) → Tail α ts) : Takes 0 (ofTail r) :=
  fun _ _ _ _ h => Nat.le_of_lt_succ (length_lt_of_outcome h)

theorem Takes.map {n : Nat} {f : α → β} (h : Takes n F) : Takes n (F.map f) := by
  intro finish ts b rest hb
  obtain ⟨a, ha, _⟩ := map_eq_ok_iff.mp hb
  exact h ha

theorem Takes.bind {m n : Nat} (hF : Takes m F) (hG : ∀ a, Takes n (G a)) :
    Takes (m + n) (F.bind G) := by
  intro finish ts b rest hb
  obtain ⟨a, mid, ha, hb⟩ := bind_eq_ok_iff.mp hb
  have hmid := hF ha
  have hrest := hG a hb
  omega

end Run
end MooScript.Grammar
