import MooScript.Parsed

/-! What a reading yields, and what holds of it whether it yields or fails; and its outcome without
the proof that less is left. -/
namespace MooScript.Reading

variable {ε τ α β : Type} {n : Nat} {a : α} {b : β} {e : ε} {ts rest : List τ}

/-- The reading succeeds with `a` and leaves `rest`. -/
def Yields (r : Reading ε τ α n) (a : α) (rest : List τ) : Prop := ∃ h, r = .ok ⟨a, rest, h⟩

theorem yields_keep : (keep a ts : Reading ε τ α _).Yields a ts := ⟨_, rfl⟩

@[simp] theorem yields_keep_iff {a' : α} :
    (keep a ts : Reading ε τ α _).Yields a' rest ↔ a = a' ∧ ts = rest := by
  constructor
  · rintro ⟨_, h⟩
    cases h
    exact ⟨rfl, rfl⟩
  · rintro ⟨rfl, rfl⟩
    exact yields_keep

@[simp] theorem yields_error_iff : ¬ Yields (.error e : Reading ε τ α n) a rest := by
  rintro ⟨_, h⟩
  cases h

@[simp] theorem yields_widen_iff {r : Reading ε τ α n} :
    r.widen.Yields a rest ↔ r.Yields a rest := by
  cases r with
  | error e => simp only [widen, yields_error_iff]
  | ok p =>
    constructor
    · rintro ⟨_, h⟩
      cases h
      exact ⟨p.shorter, rfl⟩
    · rintro ⟨_, h⟩
      cases h
      exact ⟨_, rfl⟩

@[simp] theorem yields_map_iff {r : Reading ε τ α n} {f : α → β} :
    (r.map f).Yields b rest ↔ ∃ a, r.Yields a rest ∧ f a = b := by
  constructor
  · rintro ⟨h, hr⟩
    cases r with
    | error e => cases hr
    | ok p =>
      cases hr
      exact ⟨p.value, ⟨p.shorter, rfl⟩, rfl⟩
  · rintro ⟨a, ⟨_, rfl⟩, rfl⟩
    exact ⟨_, rfl⟩

@[simp] theorem yields_andThen_iff {r : Reading ε τ α n}
    {next : (a : α) → (rest : List τ) → rest.length < n → Reading ε τ β (rest.length + 1)} :
    (r.andThen next).Yields b rest ↔
      ∃ a mid h, r.Yields a mid ∧ (next a mid h).Yields b rest := by
  constructor
  · rintro ⟨_, hr⟩
    cases r with
    | error e => cases hr
    | ok p =>
      cases hn : next p.value p.rest p.shorter with
      | error e =>
        simp only [andThen, hn] at hr
        cases hr
      | ok q =>
        simp only [andThen, hn] at hr
        cases hr
        exact ⟨p.value, p.rest, p.shorter, ⟨p.shorter, rfl⟩, hn ▸ ⟨q.shorter, rfl⟩⟩
  · rintro ⟨a, mid, h, ⟨_, rfl⟩, ⟨_, hn⟩⟩
    simp only [andThen, hn]
    exact ⟨_, rfl⟩

theorem Yields.map {r : Reading ε τ α n} (h : r.Yields a rest) (f : α → β) :
    (r.map f).Yields (f a) rest :=
  yields_map_iff.mpr ⟨a, h, rfl⟩

theorem Yields.widen {r : Reading ε τ α n} (h : r.Yields a rest) : r.widen.Yields a rest :=
  yields_widen_iff.mpr h

theorem Yields.length_lt {r : Reading ε τ α n} (h : r.Yields a rest) : rest.length < n := by
  obtain ⟨hlt, _⟩ := h
  exact hlt

theorem Yields.andThen {r : Reading ε τ α n} {mid : List τ}
    {next : (a : α) → (rest : List τ) → rest.length < n → Reading ε τ β (rest.length + 1)}
    (h : r.Yields a mid) (hn : (next a mid h.length_lt).Yields b rest) :
    (r.andThen next).Yields b rest :=
  yields_andThen_iff.mpr ⟨a, mid, h.length_lt, h, hn⟩

/-- `Q` holds of what the reading yields, and `E` of the error with which it fails. -/
def Ensures (r : Reading ε τ α n) (Q : α → List τ → Prop) (E : ε → Prop) : Prop :=
  match r with
  | .ok p => Q p.value p.rest
  | .error e => E e

variable {Q Q' : α → List τ → Prop} {R : β → List τ → Prop} {E : ε → Prop}

theorem Ensures.of_yields {r : Reading ε τ α n} (h : r.Ensures Q E) (hr : r.Yields a rest) :
    Q a rest := by
  obtain ⟨_, rfl⟩ := hr
  exact h

theorem Ensures.of_error {r : Reading ε τ α n} (h : r.Ensures Q E) (hr : r = .error e) : E e := by
  subst hr
  exact h

theorem Ensures.mono {r : Reading ε τ α n} (h : r.Ensures Q E)
    (hq : ∀ a rest, rest.length < n → Q a rest → Q' a rest) : r.Ensures Q' E := by
  cases r with
  | error e => exact h
  | ok p => exact hq _ _ p.shorter h

theorem Ensures.mono_error {E' : ε → Prop} {r : Reading ε τ α n} (h : r.Ensures Q E)
    (he : ∀ e, E e → E' e) : r.Ensures Q E' := by
  cases r with
  | error e => exact he e h
  | ok p => exact h

theorem ensures_keep (h : Q a ts) : (keep a ts : Reading ε τ α _).Ensures Q E := h

theorem ensures_error (h : E e) : Ensures (.error e : Reading ε τ α n) Q E := h

theorem Ensures.widen {r : Reading ε τ α n} (h : r.Ensures Q E) : r.widen.Ensures Q E := by
  cases r <;> exact h

theorem Ensures.map {r : Reading ε τ α n} {f : α → β}
    (h : r.Ensures (fun a rest => R (f a) rest) E) : (r.map f).Ensures R E := by
  cases r <;> exact h

theorem Ensures.andThen {r : Reading ε τ α n}
    {next : (a : α) → (rest : List τ) → rest.length < n → Reading ε τ β (rest.length + 1)}
    (h : r.Ensures Q E) (hn : ∀ a rest h, Q a rest → (next a rest h).Ensures R E) :
    (r.andThen next).Ensures R E := by
  cases r with
  | error e => exact h
  | ok p =>
    have hq := hn p.value p.rest p.shorter h
    simp only [Reading.andThen]
    cases hp : next p.value p.rest p.shorter <;> rw [hp] at hq <;> exact hq

/-! ### Outcomes -/

/-- What is read and what is left. -/
def outcome : Reading ε τ α n → Except ε (α × List τ)
  | .error e => .error e
  | .ok p => .ok (p.value, p.rest)

theorem Yields.outcome {r : Reading ε τ α n} (h : r.Yields a rest) : r.outcome = .ok (a, rest) := by
  obtain ⟨_, rfl⟩ := h
  rfl

theorem yields_of_outcome {r : Reading ε τ α n} (h : outcome r = .ok (a, rest)) :
    r.Yields a rest := by
  cases r with
  | error e => cases h
  | ok p =>
    cases h
    exact ⟨p.shorter, rfl⟩

theorem length_lt_of_outcome {r : Reading ε τ α n} (h : outcome r = .ok (a, rest)) :
    rest.length < n := by
  cases r with
  | error e => cases h
  | ok p =>
    cases h
    exact p.shorter

@[simp] theorem outcome_error (e : ε) : outcome (.error e : Reading ε τ α n) = .error e := rfl

@[simp] theorem outcome_widen (r : Reading ε τ α n) : r.widen.outcome = r.outcome := by
  cases r <;> rfl

@[simp] theorem outcome_map (r : Reading ε τ α n) (f : α → β) :
    (r.map f).outcome = r.outcome.map fun p => (f p.1, p.2) := by
  cases r <;> rfl

@[simp] theorem outcome_andThen (r : Reading ε τ α n)
    (next : α → (rest : List τ) → Reading ε τ β (rest.length + 1)) :
    (r.andThen fun a rest _ => next a rest).outcome =
      r.outcome >>= fun p => (next p.1 p.2).outcome := by
  cases r with
  | error e => rfl
  | ok p =>
    change (andThen (.ok p) fun a rest _ => next a rest).outcome = (next p.value p.rest).outcome
    rw [andThen]
    cases next p.value p.rest <;> rfl

end MooScript.Reading
