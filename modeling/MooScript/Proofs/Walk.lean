/-! Walks: readers that keep a place of their own and move it through an input. What a walk comes to
is compared with what is read off the front of what is left there. -/
namespace MooScript

/-- Why a walk stops: the input is refused, something is looked up or counted out of its range, an
integer does not fit its word, or the steps that it may take run out. -/
inductive Halt (ε : Type)
  | refused (e : ε)
  | outOfRange
  | overflow
  | outOfSteps

/-- What a walk comes to, where it leaves the walker, and what happened to it on the way. -/
structure Walked (ε σ ι α : Type) where
  result : Except (Halt ε) α
  state : σ
  journal : List (σ × ι)

/-- A computation on a walker, who tells what happens. -/
def Walk (ε σ ι α : Type) := σ → Walked ε σ ι α

namespace Walk

variable {ε σ ι τ α β : Type} {s : σ}

instance : Monad (Walk ε σ ι) where
  pure a := fun s => ⟨.ok a, s, []⟩
  bind w k := fun s =>
    let t := w s
    match t.result with
    | .error h => ⟨.error h, t.state, t.journal⟩
    | .ok a =>
      let u := k a t.state
      ⟨u.result, u.state, t.journal ++ u.journal⟩

def halt (h : Halt ε) : Walk ε σ ι α := fun s => ⟨.error h, s, []⟩

def refuse (e : ε) : Walk ε σ ι α := halt (.refused e)

/-- Takes what is there, or refuses. -/
def lift : Except ε α → Walk ε σ ι α
  | .ok a => pure a
  | .error e => refuse e

/-- The same walk as often as told. -/
def repeated (w : Walk ε σ ι α) : Nat → Walk ε σ ι (List α)
  | 0 => pure []
  | n + 1 => do
    let a ← w
    let as ← repeated w n
    return a :: as

def state : Walk ε σ ι σ := fun s => ⟨.ok s, s, []⟩

def move (s : σ) : Walk ε σ ι Unit := fun _ => ⟨.ok (), s, []⟩

/-- Tells of something that happens to the walker as it is now. -/
def note (i : ι) : Walk ε σ ι Unit := fun s => ⟨.ok (), s, [(s, i)]⟩

/-- Counts how much more one number is than another, which may not be larger. -/
def difference (m n : Nat) : Walk ε σ ι Nat := if m < n then halt .outOfRange else pure (m - n)

theorem bind_of_ok {w : Walk ε σ ι α} {k : α → Walk ε σ ι β} {a : α} (h : (w s).result = .ok a) :
    (w >>= k) s = ⟨(k a (w s).state).result, (k a (w s).state).state,
      (w s).journal ++ (k a (w s).state).journal⟩ := by
  simp only [bind, h]

theorem bind_of_error {w : Walk ε σ ι α} {k : α → Walk ε σ ι β} {h : Halt ε}
    (hw : (w s).result = .error h) : (w >>= k) s = ⟨.error h, (w s).state, (w s).journal⟩ := by
  simp only [bind, hw]

@[simp] theorem state_bind {k : σ → Walk ε σ ι α} : ((state : Walk ε σ ι σ) >>= k) s = k s s := rfl

@[simp] theorem move_bind {s' : σ} {k : Unit → Walk ε σ ι α} :
    ((move s' : Walk ε σ ι Unit) >>= k) s = k () s' := rfl

@[simp] theorem note_bind {i : ι} {k : Unit → Walk ε σ ι α} :
    ((note i : Walk ε σ ι Unit) >>= k) s =
      ⟨(k () s).result, (k () s).state, (s, i) :: (k () s).journal⟩ := rfl

@[simp] theorem pure_bind {a : α} {k : α → Walk ε σ ι β} :
    ((pure a : Walk ε σ ι α) >>= k) s = k a s := rfl

theorem difference_of_le {m n : Nat} (h : n ≤ m) :
    (difference m n : Walk ε σ ι Nat) = pure (m - n) := if_neg (Nat.not_lt.mpr h)

end Walk

/-- The walk only goes forward: so do the places that it tells of, between its two ends. -/
structure Walked.Forward {ε σ ι α : Type} (place : σ → Nat) (s : σ) (t : Walked ε σ ι α) :
    Prop where
  le : place s ≤ place t.state
  between : ∀ e ∈ t.journal, place s ≤ place e.1 ∧ place e.1 ≤ place t.state
  sorted : (t.journal.map fun e => place e.1).Pairwise (· ≤ ·)

namespace Walked.Forward

variable {ε σ ι α β : Type} {place : σ → Nat} {s : σ}

theorem refl {t : Walked ε σ ι α} (hstate : t.state = s) (hjournal : t.journal = []) :
    Forward place s t := by
  constructor
  · exact Nat.le_of_eq (congrArg place hstate.symm)
  · rw [hjournal]
    exact List.forall_mem_nil _
  · rw [hjournal]
    exact List.Pairwise.nil

theorem bind {w : Walk ε σ ι α} {k : α → Walk ε σ ι β} (h : Forward place s (w s))
    (hk : ∀ a, (w s).result = .ok a → Forward place (w s).state (k a (w s).state)) :
    Forward place s ((w >>= k) s) := by
  cases hw : (w s).result with
  | error stop =>
    rw [Walk.bind_of_error hw]
    exact ⟨h.le, h.between, h.sorted⟩
  | ok a =>
    have hthen := hk a hw
    rw [Walk.bind_of_ok hw]
    refine ⟨Nat.le_trans h.le hthen.le, ?_, ?_⟩
    · intro e he
      rcases List.mem_append.mp he with he | he
      · exact ⟨(h.between e he).1, Nat.le_trans (h.between e he).2 hthen.le⟩
      · exact ⟨Nat.le_trans h.le (hthen.between e he).1, (hthen.between e he).2⟩
    · rw [List.map_append, List.pairwise_append]
      refine ⟨h.sorted, hthen.sorted, ?_⟩
      intro m hm n hn
      obtain ⟨e, he, rfl⟩ := List.mem_map.mp hm
      obtain ⟨e', he', rfl⟩ := List.mem_map.mp hn
      exact Nat.le_trans (h.between e he).2 (hthen.between e' he').1

theorem note {i : ι} {k : Unit → Walk ε σ ι α} (h : Forward place s (k () s)) :
    Forward place s ((Walk.note i >>= k) s) := by
  rw [Walk.note_bind]
  refine ⟨h.le, ?_, ?_⟩
  · intro e he
    rcases List.mem_cons.mp he with rfl | he
    · exact ⟨Nat.le_refl _, h.le⟩
    · exact h.between e he
  · rw [List.map_cons, List.pairwise_cons]
    refine ⟨?_, h.sorted⟩
    intro n hn
    obtain ⟨e, he, rfl⟩ := List.mem_map.mp hn
    exact (h.between e he).1

end Walked.Forward

/-- The walk stays in the input, comes to what is read off the front of what is left of it, and
leaves the walker in front of what is left then. -/
structure Walked.Follows {ε σ ι τ α : Type} (place : σ → Nat) (input : List τ) (s : σ)
    (t : Walked ε σ ι α) (o : Except ε (α × List τ)) : Prop extends Forward place s t where
  result : t.result = (o.map Prod.fst).mapError .refused
  inside : place t.state ≤ input.length
  left : ∀ a rest, o = .ok (a, rest) → rest = input.drop (place t.state)

namespace Walked.Follows

variable {ε σ ι τ α β : Type} {place : σ → Nat} {input : List τ} {s : σ}

theorem pure (a : α) (h : place s ≤ input.length) :
    Follows place input s ((Pure.pure a : Walk ε σ ι α) s) (.ok (a, input.drop (place s))) where
  toForward := .refl rfl rfl
  result := rfl
  inside := h
  left := by
    intro a' rest ho
    cases ho
    rfl

theorem refuse (e : ε) (h : place s ≤ input.length) :
    Follows place input s ((Walk.refuse e : Walk ε σ ι α) s) (.error e) where
  toForward := .refl rfl rfl
  result := rfl
  inside := h
  left := by
    intro a rest ho
    cases ho

/-- The outcome that a walk follows, if it succeeds. -/
theorem eq_ok {t : Walked ε σ ι α} {o : Except ε (α × List τ)} (h : Follows place input s t o)
    {a : α} (ht : t.result = .ok a) : o = .ok (a, input.drop (place t.state)) := by
  have hresult := h.result
  rw [ht] at hresult
  cases o with
  | error e => cases hresult
  | ok p =>
    cases hresult
    rw [← h.left p.1 p.2 rfl]

theorem eq_error {t : Walked ε σ ι α} {o : Except ε (α × List τ)} (h : Follows place input s t o)
    {stop : Halt ε} (ht : t.result = .error stop) : ∃ e, stop = .refused e ∧ o = .error e := by
  have hresult := h.result
  rw [ht] at hresult
  cases o with
  | error e =>
    cases hresult
    exact ⟨e, rfl, rfl⟩
  | ok p => cases hresult

/-- A walk goes on where the first part of it ends. -/
theorem bind {w : Walk ε σ ι α} {k : α → Walk ε σ ι β} {o : Except ε (α × List τ)}
    {f : α × List τ → Except ε (β × List τ)} (h : Follows place input s (w s) o)
    (hk : ∀ a, (w s).result = .ok a → Follows place input (w s).state (k a (w s).state)
      (f (a, input.drop (place (w s).state)))) :
    Follows place input s ((w >>= k) s) (o >>= f) := by
  have hforward := h.toForward.bind fun a ha => (hk a ha).toForward
  cases hw : (w s).result with
  | error stop =>
    obtain ⟨e, rfl, rfl⟩ := h.eq_error hw
    rw [Walk.bind_of_error hw] at hforward ⊢
    exact ⟨hforward, rfl, h.inside, fun a rest ho => by cases ho⟩
  | ok a =>
    obtain rfl := h.eq_ok hw
    have hthen := hk a hw
    rw [Walk.bind_of_ok hw] at hforward ⊢
    exact ⟨hforward, hthen.result, hthen.inside, hthen.left⟩

/-- Telling of the walker changes nothing else. -/
theorem note {i : ι} {k : Unit → Walk ε σ ι α} {o : Except ε (α × List τ)}
    (h : Follows place input s (k () s) o) :
    Follows place input s ((Walk.note i >>= k) s) o :=
  ⟨h.toForward.note, h.result, h.inside, h.left⟩

/-- The walk is at its end where the walker stands at the end of the input. -/
theorem place_le {t : Walked ε σ ι α} {o : Except ε (α × List τ)} (h : Follows place input s t o) :
    ∀ e ∈ t.journal, place e.1 ≤ input.length :=
  fun e he => Nat.le_trans (h.between e he).2 h.inside

end Walked.Follows
end MooScript
