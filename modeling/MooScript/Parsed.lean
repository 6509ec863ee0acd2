/-! Reading results off the front of a list. -/
namespace MooScript

/-- A result, and what is left of a list of `n` elements after it: less than there was. -/
structure Parsed (τ : Type) (α : Type) (n : Nat) where
  value : α
  rest : List τ
  shorter : rest.length < n

/-- What comes of reading a list: a list of `n` elements loses at least one of them. Where none
needs to be lost, `n` is one more than there are. -/
abbrev Reading (ε : Type) (τ : Type) (α : Type) (n : Nat) := Except ε (Parsed τ α n)

namespace Reading

variable {ε τ α β : Type} {n : Nat}

/-- Reads nothing. -/
def keep (a : α) (ts : List τ) : Reading ε τ α (ts.length + 1) :=
  .ok ⟨a, ts, Nat.lt_succ_self _⟩

/-- The same result, of a list with more elements. -/
def widen : Reading ε τ α n → Reading ε τ α (n + 1)
  | .error e => .error e
  | .ok p => .ok ⟨p.value, p.rest, Nat.lt_succ_of_lt p.shorter⟩

def map (f : α → β) : Reading ε τ α n → Reading ε τ β n
  | .error e => .error e
  | .ok p => .ok ⟨f p.value, p.rest, p.shorter⟩

/-- Reads on where a result ends; what is left there is known to be shorter. -/
def andThen (r : Reading ε τ α n)
    (next : (a : α) → (rest : List τ) → rest.length < n → Reading ε τ β (rest.length + 1)) :
    Reading ε τ β n :=
  match r with
  | .error e => .error e
  | .ok p => match next p.value p.rest p.shorter with
    | .error e => .error e
    | .ok q => .ok ⟨q.value, q.rest, Nat.lt_of_le_of_lt (Nat.le_of_lt_succ q.shorter) p.shorter⟩

end Reading
end MooScript
