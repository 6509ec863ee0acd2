import Mathlib
import MooScript.Proofs.Evaluation.Coincidence
import MooScript.Proofs.Literal.Evaluation

/-! Histories of an environment: what was opened, closed and defined, and what a name then means.

A history knows of no scopes. A definition lasts until the scope that was innermost at the time is
closed, and whether that has happened is read off the operations that came later. -/
namespace MooScript.Environment

inductive Operation
  | push
  | pop
  | define (name : String) (value : Value)

namespace Operation

def perform : Operation → Environment → Environment
  | push, e => e.push
  | pop, e => e.pop
  | define name value, e => e.define name value

def isPush : Operation → Bool
  | push => true
  | _ => false

def isPop : Operation → Bool
  | pop => true
  | _ => false

/-- What a definition binds the name to. -/
def binding? (x : String) : Operation → Option Value
  | push | pop => none
  | define name value => if x = name then some value else none

theorem binding?_eq_some_iff {op : Operation} {x : String} {v : Value} :
    op.binding? x = some v ↔ op = define x v := by
  cases op with
  | define name value => simp [binding?, eq_comm]
  | _ => simp [binding?]

end Operation

/-- Operations from the oldest to the newest. -/
abbrev History := List Operation

def after (e : Environment) (h : History) : Environment := h.foldl (fun e op => op.perform e) e

namespace History

def pushes (h : History) : ℕ := h.countP Operation.isPush

def pops (h : History) : ℕ := h.countP Operation.isPop

/-- Whether the scope that was innermost before is closed: at some point more had been closed than
opened. -/
def closes (later : History) : Bool :=
  later.inits.any fun first => decide (pushes first < pops first)

/-- How many of the scopes that were opened have not been closed. -/
def openPushes : History → ℕ
  | [] => 0
  | op :: later => openPushes later + if op.isPush && !closes later then 1 else 0

/-- A definition made after `before` has outlasted `later`: it was global, or its scope was not
closed. -/
def Lasts (before later : History) : Prop := before.openPushes = 0 ∨ later.closes = false

/-- The name is defined after `before`, in a scope that has not been closed since. -/
def Binds (h : History) (x : String) (v : Value) (before : History) : Prop :=
  ∃ later, h = before ++ .define x v :: later ∧ Lasts before later

/-- The most recent of the definitions of the name that have lasted. -/
def Latest (h : History) (x : String) (v : Value) : Prop :=
  ∃ before, h.Binds x v before ∧
    ∀ w before', h.Binds x w before' → before'.length ≤ before.length

/-- What is opened is closed again, nothing else is, and all definitions are made in between. -/
structure Nested (h : History) : Prop where
  within : ∀ first : History, first <+: h → first.pops ≤ first.pushes
  balanced : h.pops = h.pushes
  inside : ∀ (before : History) x v later, h = before ++ .define x v :: later →
    before.pops < before.pushes

variable {h later before : History} {e : Environment} {op : Operation} {x : String} {v : Value}

@[simp] theorem pushes_nil : pushes [] = 0 := rfl

@[simp] theorem pops_nil : pops [] = 0 := rfl

@[simp] theorem pushes_cons (op : Operation) (h : History) :
    pushes (op :: h) = pushes h + if op.isPush then 1 else 0 :=
  List.countP_cons

@[simp] theorem pops_cons (op : Operation) (h : History) :
    pops (op :: h) = pops h + if op.isPop then 1 else 0 :=
  List.countP_cons

/-! ### Scopes that are closed -/

/-- How many scopes are closed that were open before. -/
def closed : History → ℕ
  | [] => 0
  | .push :: later => closed later - 1
  | .pop :: later => closed later + 1
  | .define .. :: later => closed later

theorem exists_prefix_cons_iff {P : History → Prop} :
    (∃ first, first <+: op :: h ∧ P first) ↔ P [] ∨ ∃ first, first <+: h ∧ P (op :: first) := by
  constructor
  · rintro ⟨first, hfirst, hP⟩
    cases first with
    | nil => exact .inl hP
    | cons op' rest =>
      obtain ⟨rfl, hrest⟩ := List.cons_prefix_cons.mp hfirst
      exact .inr ⟨rest, hrest, hP⟩
  · rintro (hP | ⟨rest, hrest, hP⟩)
    · exact ⟨[], List.nil_prefix, hP⟩
    · exact ⟨op :: rest, List.cons_prefix_cons.mpr ⟨rfl, hrest⟩, hP⟩

/-- At some point more than `k` scopes had been closed that were open before. -/
theorem exists_prefix_iff (h : History) (k : ℕ) :
    (∃ first : History, first <+: h ∧ first.pushes + k < first.pops) ↔ k < h.closed := by
  induction h generalizing k with
  | nil => simp [closed, pushes, pops]
  | cons op later ih =>
    have hnil : ¬pushes [] + k < pops [] := Nat.not_lt_zero _
    rw [exists_prefix_cons_iff, or_iff_right hnil]
    simp only [pushes_cons, pops_cons]
    cases op with
    | push =>
      rw [closed, Nat.lt_sub_iff_add_lt, ← ih (k + 1)]
      simp [Operation.isPush, Operation.isPop, add_assoc, add_comm 1]
    | pop =>
      cases k with
      | zero => exact iff_of_true ⟨[], List.nil_prefix, by decide⟩ (Nat.succ_pos _)
      | succ k =>
        rw [closed, Nat.add_lt_add_iff_right, ← ih k]
        simp [Operation.isPush, Operation.isPop, ← add_assoc]
    | define name value => exact ih k

theorem closes_eq_decide (later : History) : later.closes = decide (0 < later.closed) := by
  rw [Bool.eq_iff_iff, decide_eq_true_iff, ← exists_prefix_iff, closes, List.any_eq_true]
  simp only [List.mem_inits, decide_eq_true_iff, add_zero]

theorem closes_eq_false_iff : later.closes = false ↔ later.closed = 0 := by
  rw [closes_eq_decide, decide_eq_false_iff_not, Nat.not_lt, Nat.le_zero]

theorem openPushes_push : openPushes (.push :: h) =
    h.openPushes + if h.closed = 0 then 1 else 0 := by
  rw [openPushes, closes_eq_decide]
  simp [Operation.isPush]

end History

open History

variable {h later before : History} {e : Environment} {op : Operation} {x : String} {v : Value}

theorem after_cons (e : Environment) (op : Operation) (h : History) :
    e.after (op :: h) = (op.perform e).after h := rfl

theorem after_append (e : Environment) (h h' : History) :
    e.after (h ++ h') = (e.after h).after h' :=
  List.foldl_append

theorem length_inner_define (e : Environment) (name : String) (value : Value) :
    (e.define name value).inner.length = e.inner.length := by
  obtain ⟨inner, globals⟩ := e
  cases inner <;> rfl

/-- The scopes of before that are not closed, and those that were opened and not closed. -/
theorem length_inner_after (e : Environment) (h : History) :
    (e.after h).inner.length = (e.inner.length - h.closed) + h.openPushes := by
  induction h generalizing e with
  | nil => rfl
  | cons op later ih =>
    rw [after_cons, ih]
    cases op with
    | push =>
      rw [openPushes_push, closed, Operation.perform, push, List.length_cons]
      split <;> omega
    | pop =>
      change e.inner.tail.length - _ + _ = e.inner.length - (closed later + 1) + openPushes later
      rw [List.length_tail]
      omega
    | define name value =>
      rw [Operation.perform, length_inner_define]
      rfl

theorem inner_after_initial : (initial.after h).inner = [] ↔ h.openPushes = 0 := by
  have hinner : initial.inner.length = 0 := rfl
  rw [← List.length_eq_zero_iff, length_inner_after, hinner, Nat.zero_sub, Nat.zero_add]

/-! ### What a name finds -/

/-- The environment without its innermost scopes. -/
def drop (e : Environment) (n : ℕ) : Environment := { e with inner := e.inner.drop n }

/-- One operation gives a name at most what it binds it to, in a scope that lasts; otherwise the
name finds what it finds in the scopes that last. -/
theorem get?_drop_perform (e : Environment) (op : Operation) (later : History) (x : String) :
    ((op.perform e).drop later.closed).get? x =
      (if e.inner = [] ∨ later.closed = 0 then op.binding? x else none).or
        ((e.drop (closed (op :: later))).get? x) := by
  cases op with
  | push =>
    rw [Operation.binding?, ite_self, Option.none_or, closed]
    -- The scope that is opened is empty, and the first to be closed.
    cases later.closed <;> rfl
  | pop =>
    rw [Operation.binding?, ite_self, Option.none_or, closed]
    obtain ⟨inner, globals⟩ := e
    cases inner with
    | nil => simp [drop, Operation.perform, pop]
    | cons scope outer => rfl
  | define name value =>
    have hdefine : (e.define name value).get? x =
        (if x = name then some value else none).or (e.get? x) := by
      rw [get?_define]
      split <;> rfl
    obtain ⟨inner, globals⟩ := e
    rw [closed, Operation.binding?]
    cases inner with
    | nil =>
      rw [if_pos (.inl rfl), drop, drop, List.drop_nil]
      simpa only [drop, Operation.perform, define, List.drop_nil] using hdefine
    | cons scope outer =>
      cases hclosed : later.closed with
      | zero => exact hdefine
      | succ n => rfl

/-- What a history binds a name to, the latest that has lasted. -/
def retained (e : Environment) (x : String) : History → Option Value
  | [] => none
  | op :: later => (retained (op.perform e) x later).or
      (if e.inner = [] ∨ closed later = 0 then op.binding? x else none)

theorem get?_after (e : Environment) (h : History) (x : String) :
    (e.after h).get? x = (e.retained x h).or ((e.drop h.closed).get? x) := by
  induction h generalizing e with
  | nil => rfl
  | cons op later ih =>
    rw [after_cons, ih, get?_drop_perform, ← Option.or_assoc, retained]

/-- The name is bound after `before`, in a scope that lasts for an environment that was there. -/
def BindsFrom (e : Environment) (h : History) (x : String) (v : Value) (before : History) : Prop :=
  ∃ later : History, h = before ++ .define x v :: later ∧
    ((e.after before).inner = [] ∨ later.closed = 0)

theorem bindsFrom_initial_iff : initial.BindsFrom h x v before ↔ h.Binds x v before := by
  simp only [BindsFrom, Binds, Lasts, inner_after_initial, closes_eq_false_iff]

theorem not_bindsFrom_nil : ¬e.BindsFrom [] x v before := by
  rintro ⟨later, hnil, -⟩
  cases before <;> cases hnil

theorem bindsFrom_head_iff : e.BindsFrom (op :: h) x v [] ↔
    (if e.inner = [] ∨ h.closed = 0 then op.binding? x else none) = some v := by
  simp only [BindsFrom, after, List.foldl_nil, List.nil_append, List.cons.injEq,
    Option.ite_none_right_eq_some, Operation.binding?_eq_some_iff]
  constructor
  · rintro ⟨later, ⟨hop, rfl⟩, hlasts⟩
    exact ⟨hlasts, hop⟩
  · rintro ⟨hlasts, hop⟩
    exact ⟨h, ⟨hop, rfl⟩, hlasts⟩

theorem bindsFrom_tail_iff {op' : Operation} : e.BindsFrom (op :: h) x v (op' :: before) ↔
    op' = op ∧ (op.perform e).BindsFrom h x v before := by
  simp only [BindsFrom, after_cons, List.cons_append, List.cons.injEq]
  constructor
  · rintro ⟨later, ⟨rfl, heq⟩, hlasts⟩
    exact ⟨rfl, later, heq, hlasts⟩
  · rintro ⟨rfl, later, heq, hlasts⟩
    exact ⟨later, ⟨rfl, heq⟩, hlasts⟩

theorem retained_eq_none_iff :
    e.retained x h = none ↔ ∀ v before, ¬e.BindsFrom h x v before := by
  induction h generalizing e with
  | nil => exact iff_of_true rfl fun _ _ => not_bindsFrom_nil
  | cons op later ih =>
    rw [retained, Option.or_eq_none_iff, ih]
    constructor
    · rintro ⟨htail, hhead⟩ v before
      cases before with
      | nil =>
        rw [bindsFrom_head_iff, hhead]
        exact Option.not_mem_none v
      | cons op' rest => exact fun hbinds => htail v rest (bindsFrom_tail_iff.mp hbinds).2
    · intro hnone
      refine ⟨fun v rest hbinds => hnone v _ (bindsFrom_tail_iff.mpr ⟨rfl, hbinds⟩), ?_⟩
      exact Option.eq_none_iff_forall_not_mem.mpr fun v hv =>
        hnone v [] (bindsFrom_head_iff.mpr hv)

theorem retained_eq_some_iff : e.retained x h = some v ↔ ∃ before, e.BindsFrom h x v before ∧
    ∀ w before', e.BindsFrom h x w before' → before'.length ≤ before.length := by
  induction h generalizing e with
  | nil =>
    refine iff_of_false (Option.not_mem_none v) ?_
    rintro ⟨before, hbinds, -⟩
    exact not_bindsFrom_nil hbinds
  | cons op later ih =>
    rw [retained, Option.or_eq_some_iff, ih, retained_eq_none_iff, ← bindsFrom_head_iff]
    constructor
    · rintro (⟨rest, hbinds, hlatest⟩ | ⟨hnone, hbinds⟩)
      · refine ⟨op :: rest, bindsFrom_tail_iff.mpr ⟨rfl, hbinds⟩, fun w before' hbinds' => ?_⟩
        cases before' with
        | nil => exact Nat.zero_le _
        | cons op' rest' =>
          exact Nat.succ_le_succ (hlatest w rest' (bindsFrom_tail_iff.mp hbinds').2)
      · refine ⟨[], hbinds, fun w before' hbinds' => ?_⟩
        cases before' with
        | nil => exact Nat.le_refl _
        | cons op' rest' => exact absurd (bindsFrom_tail_iff.mp hbinds').2 (hnone w rest')
    · rintro ⟨before, hbinds, hlatest⟩
      cases before with
      | nil =>
        -- One in the rest would be later.
        refine .inr ⟨fun w rest hrest => ?_, hbinds⟩
        exact Nat.not_succ_le_zero _ (hlatest w _ (bindsFrom_tail_iff.mpr ⟨rfl, hrest⟩))
      | cons op' rest =>
        refine .inl ⟨rest, (bindsFrom_tail_iff.mp hbinds).2, fun w rest' hbinds' => ?_⟩
        exact Nat.le_of_succ_le_succ (hlatest w _ (bindsFrom_tail_iff.mpr ⟨rfl, hbinds'⟩))

theorem get?_of_inner_nil (he : e.inner = []) (x : String) : e.get? x = e.globals.get? x := by
  rw [get?, he, List.nil_append, List.findSome?_singleton]

theorem get?_initial_eq_some_iff : initial.get? x = some v ↔ (x, v) ∈ constants := by
  rw [get?_of_inner_nil rfl]
  exact Table.get?_ofList nodup_constants

theorem drop_of_inner_nil (he : e.inner = []) (n : ℕ) : e.drop n = e := by
  obtain ⟨inner, globals⟩ := e
  cases he
  rw [drop, List.drop_nil]

theorem get?_after_initial_eq_some_iff : (initial.after h).get? x = some v ↔
    h.Latest x v ∨ (∀ w before, ¬h.Binds x w before) ∧ (x, v) ∈ constants := by
  rw [get?_after, drop_of_inner_nil rfl, Option.or_eq_some_iff, retained_eq_some_iff,
    retained_eq_none_iff, get?_initial_eq_some_iff]
  simp only [bindsFrom_initial_iff, Latest]

/-! ### What is closed again -/

/-- Of the scopes that were open before, the operations close at most the `k` innermost, and define
nothing in the others. -/
structure Within (k : ℕ) (h : History) : Prop where
  closing : ∀ first : History, first <+: h → first.pops ≤ first.pushes + k
  defining : ∀ (before : History) x v later, h = before ++ .define x v :: later →
    before.pops < before.pushes + k

theorem History.Nested.within_zero (hnested : h.Nested) : Within 0 h :=
  ⟨hnested.within, hnested.inside⟩

theorem Within.tail {k k' : ℕ} (hwithin : Within k (op :: h))
    (hk : k' + pops [op] = k + pushes [op]) : Within k' h where
  closing first hfirst := by
    have hclosing := hwithin.closing (op :: first) (List.cons_prefix_cons.mpr ⟨rfl, hfirst⟩)
    simp only [pops_cons, pops_nil, pushes_cons, pushes_nil] at hk hclosing
    omega
  defining before x v later heq := by
    have hdefining := hwithin.defining (op :: before) x v later (congrArg (op :: ·) heq)
    simp only [pops_cons, pops_nil, pushes_cons, pushes_nil] at hk hdefining
    omega

theorem Within.exists_perform_eq {scopes : List Scope} (hwithin : Within scopes.length (op :: h))
    (outer : List Scope) (globals : Scope) :
    ∃ scopes' : List Scope, scopes'.length + pops [op] = scopes.length + pushes [op] ∧
      op.perform ⟨scopes ++ outer, globals⟩ = ⟨scopes' ++ outer, globals⟩ := by
  cases op with
  | push => exact ⟨.empty :: scopes, rfl, rfl⟩
  | pop =>
    have hopen : 0 < scopes.length := by
      have hclosing := hwithin.closing [.pop] (List.prefix_append [.pop] h)
      simpa [Operation.isPush, Operation.isPop, Nat.succ_le_iff] using hclosing
    obtain ⟨scope, rest, rfl⟩ := List.exists_cons_of_length_pos hopen
    exact ⟨rest, rfl, rfl⟩
  | define name value =>
    have hopen : 0 < scopes.length := by
      simpa using hwithin.defining [] name value h rfl
    obtain ⟨scope, rest, rfl⟩ := List.exists_cons_of_length_pos hopen
    exact ⟨scope.insert name value :: rest, rfl, rfl⟩

theorem Within.exists_after_eq {scopes : List Scope} (hwithin : Within scopes.length h)
    (outer : List Scope) (globals : Scope) :
    ∃ scopes' : List Scope, scopes'.length + h.pops = scopes.length + h.pushes ∧
      after ⟨scopes ++ outer, globals⟩ h = ⟨scopes' ++ outer, globals⟩ := by
  induction h generalizing scopes with
  | nil => exact ⟨scopes, rfl, rfl⟩
  | cons op later ih =>
    obtain ⟨next, hnext, hperform⟩ := hwithin.exists_perform_eq outer globals
    obtain ⟨scopes', hlength, hafter⟩ := ih (hwithin.tail hnext)
    refine ⟨scopes', ?_, ?_⟩
    · simp only [pops_cons, pops_nil, pushes_cons, pushes_nil] at hnext ⊢
      omega
    · rw [after_cons, hperform, hafter]

/-- What is opened in between leaves nothing behind. -/
theorem History.Nested.after_eq (hnested : h.Nested) (e : Environment) : e.after h = e := by
  have hwithin : Within ([] : List Scope).length h := hnested.within_zero
  obtain ⟨scopes, hlength, hafter⟩ := hwithin.exists_after_eq e.inner e.globals
  rw [hnested.balanced, List.length_nil, Nat.add_right_cancel_iff, List.length_eq_zero_iff]
    at hlength
  rw [hlength] at hafter
  exact hafter

theorem after_pop_of_inner_nil (he : e.inner = []) : e.after [.pop] = e := by
  obtain ⟨inner, globals⟩ := e
  cases he
  rfl

/-- What a history says of a fresh environment after it. -/
structure Reflects (h : History) : Prop where
  lookup : ∀ x v, (initial.after h).get? x = some v ↔
    h.Latest x v ∨ (∀ w before, ¬h.Binds x w before) ∧ (x, v) ∈ constants
  depth : (initial.after h).depth = 1 + h.openPushes
  bottom : h.openPushes = 0 → initial.after (h ++ [.pop]) = initial.after h
  nested : ∀ segment : History, segment.Nested →
    ∀ x, (initial.after (h ++ segment)).get? x = (initial.after h).get? x

/-- A name means what the latest definition of it that has outlasted all closings says, or is a
constant. -/
theorem reflects_history (h : History) : Reflects h where
  lookup _ _ := get?_after_initial_eq_some_iff
  depth := by
    have hinner : initial.inner.length = 0 := rfl
    rw [depth, length_inner_after, hinner, Nat.zero_sub, Nat.zero_add, Nat.add_comm]
  bottom hopen := by
    rw [after_append, after_pop_of_inner_nil (inner_after_initial.mpr hopen)]
  nested segment hnested x := by
    rw [after_append, hnested.after_eq]

/-- A definition in a scope that is closed again hides one outside for no longer than that. -/
theorem reflects_history_shadowed :
    let outside : History := [.define "x" (.integer 1)]
    let inside : History := [.push, .define "x" (.integer 2), .pop]
    inside.Nested ∧ (initial.after (outside ++ inside)).get? "x" = some (.integer 1) ∧
      (initial.after (outside ++ inside ++ [.pop])).depth = 1 := by
  intro outside inside
  have hnested : inside.Nested := by
    refine ⟨fun first hfirst => ?_, rfl, fun before x v later heq => ?_⟩
    · have hinits : ∀ first ∈ inside.inits, pops first ≤ pushes first := by decide
      exact hinits first ((List.mem_inits _ _).mpr hfirst)
    · simp only [inside, List.cons_eq_append_iff] at heq
      obtain rfl : before = [.push] := by simp_all
      decide
  refine ⟨hnested, ?_, ?_⟩
  · rw [(reflects_history outside).nested inside hnested]
    refine ((reflects_history outside).lookup "x" _).mpr (.inl ⟨[], ⟨[], rfl, .inl rfl⟩, ?_⟩)
    rintro w before ⟨later, heq, -⟩
    have hlength : 1 = before.length + (later.length + 1) :=
      (congrArg List.length heq).trans List.length_append
    exact Nat.le_zero.mpr (by omega)
  · rw [(reflects_history _).depth]
    decide

end MooScript.Environment
