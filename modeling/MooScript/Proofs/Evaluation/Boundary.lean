import Mathlib
import MooScript.Builtin.Standard
import MooScript.Proofs.Evaluation.Simulation

/-! The boundary of statements: what an error value that an expression came to becomes when it is
the value of a statement. It is returned or raised; no statement completes with one. -/
namespace MooScript

open MooScript.Action (demand)
open Traced (silent observe evaluation execution)

/-! ### Completed and returned values -/

/-- The events end a statement that returns what its expression came to, and then only what
encloses that statement. -/
def Event.Returned (v : Value) (m : Machine) (events : List Event) : Prop :=
  ∃ before e t after,
    events = before ++ evaluated e (.ok v) m :: executed (.return_ e t) (.ok (.returned v)) m ::
      after ∧
    ∀ later ∈ after, ∃ s, later = executed s (.ok (.returned v)) m

/-- It completes with no error value, and returns no value but that of a return statement. -/
structure Trace.Settled (t : Trace Flow) : Prop where
  completed : ∀ {v m}, t.result = (.ok (.completed v), m) → v.errorCode? = none
  returned : ∀ {v m}, t.result = (.ok (.returned v), m) → Event.Returned v m t.events

namespace Event

variable {v : Value} {m : Machine} {events : List Event}

theorem Returned.append_left (earlier : List Event) (h : Returned v m events) :
    Returned v m (earlier ++ events) := by
  obtain ⟨before, e, t, after, rfl, hafter⟩ := h
  exact ⟨earlier ++ before, e, t, after, (List.append_assoc _ _ _).symm, hafter⟩

theorem Returned.enclosed (opening : Event) (s : Stmt) (h : Returned v m events) :
    Returned v m (opening :: (events ++ [executed s (.ok (.returned v)) m])) := by
  obtain ⟨before, e, t, after, rfl, hafter⟩ := h
  refine ⟨opening :: before, e, t, after ++ [executed s (.ok (.returned v)) m], by simp, ?_⟩
  exact List.forall_mem_append.mpr ⟨hafter, List.forall_mem_singleton.mpr ⟨s, rfl⟩⟩

end Event

namespace Traced

variable {α : Type} {act : Traced α} {k : α → Traced Flow} {flow : Traced Flow}

/-- However it ends, the flow is settled. -/
def Settles (act : Traced Flow) : Prop := ∀ m, (act m).Settled

theorem settles_completed {v : Value} (h : v.errorCode? = none) :
    Settles (pure (.completed v)) := by
  refine fun m => ⟨fun hresult => ?_, fun hresult => ?_⟩
  · cases hresult
    exact h
  · cases hresult

theorem settles_throw (f : Fault) : Settles (silent (throw f)) := by
  refine fun m => ⟨fun hresult => ?_, fun hresult => ?_⟩ <;> cases hresult

theorem Settles.bind (hk : ∀ a, Settles (k a)) : Settles (act >>= k) := by
  intro m
  rcases bind_cases act k m with ⟨f, m', _, hbind⟩ | ⟨a, m', _, hbind⟩
  · rw [hbind]
    refine ⟨fun hresult => ?_, fun hresult => ?_⟩ <;> cases hresult
  · rw [hbind]
    obtain ⟨hcompleted, hreturned⟩ := hk a m'
    exact ⟨hcompleted, fun hresult => (hreturned hresult).append_left _⟩

/-- A value that is demanded is no error. -/
theorem settles_demand {k : Value → Traced Flow} (token : Token) (value : Value)
    (hk : ∀ v, v.errorCode? = none → Settles (k v)) :
    Settles (silent (demand token value) >>= k) := by
  cases value with
  | error code =>
    refine fun m => ⟨fun hresult => ?_, fun hresult => ?_⟩ <;> cases hresult
  | _ => exact hk _ rfl

theorem settles_demanded {e : Expr} {act : Traced Value} {k : Value → Traced Flow} (token : Token)
    (hk : ∀ v, v.errorCode? = none → Settles (k v)) :
    Settles (evaluation e act >>= fun value => silent (demand token value) >>= k) :=
  Settles.bind fun value => settles_demand token value hk

/-- What follows a flow goes on from its value, or hands on what is returned. -/
theorem Settles.andThen {k : Flow → Traced Flow} (h : Settles flow)
    (hcompleted : ∀ v, v.errorCode? = none → Settles (k (.completed v)))
    (hreturned : ∀ v, k (.returned v) = pure (.returned v)) : Settles (flow >>= k) := by
  intro m
  rcases bind_cases flow k m with ⟨f, m', _, hbind⟩ | ⟨way, m', hflow, hbind⟩
  · rw [hbind]
    refine ⟨fun hresult => ?_, fun hresult => ?_⟩ <;> cases hresult
  · rw [hbind]
    cases way with
    | completed v =>
      obtain ⟨hdone, hback⟩ := hcompleted v ((h m).completed hflow) m'
      exact ⟨hdone, fun hresult => (hback hresult).append_left _⟩
    | returned v =>
      rw [hreturned v]
      change Trace.Settled ⟨(.ok (.returned v), m'), (flow m).events ++ []⟩
      rw [List.append_nil, ← hflow]
      exact h m

theorem Settles.observe_bind {k : Except Fault Flow → Traced Flow} (h : Settles flow)
    (hok : ∀ way, k (.ok way) = pure way) (herror : ∀ f, Settles (k (.error f))) :
    Settles (observe flow >>= k) := by
  intro m
  rw [Traced.observe_bind]
  cases hflow : (flow m).result with
  | mk outcome m' =>
    cases outcome with
    | error f =>
      obtain ⟨hdone, hback⟩ := herror f m'
      exact ⟨hdone, fun hresult => (hback hresult).append_left _⟩
    | ok way =>
      rw [hok way]
      change Trace.Settled ⟨(.ok way, m'), (flow m).events ++ []⟩
      rw [List.append_nil, ← hflow]
      exact h m

theorem Settles.execution (s : Stmt) (h : Settles flow) : Settles (execution s flow) := by
  refine fun m => ⟨(h m).completed, fun {v m'} hresult => ?_⟩
  have hflow : (flow m).result = (.ok (.returned v), m') := hresult
  have hreturned := ((h m).returned hflow).enclosed (.executing s) s
  rw [Traced.execution, hflow]
  exact hreturned

/-- A return statement is what it returns by. -/
theorem settles_return (e : Expr) (t : Token) (act : Traced Value) :
    Settles (Traced.execution (.return_ e t) do
      let value ← evaluation e act
      return .returned value) := by
  intro m
  cases hact : (act m).result with
  | mk outcome m' =>
    have hvalue : (evaluation e act m).result = (outcome, m') := hact
    cases outcome with
    | error f =>
      rw [Traced.execution, bind_of_error hvalue]
      refine ⟨fun hresult => ?_, fun hresult => ?_⟩ <;> cases hresult
    | ok value =>
      rw [Traced.execution, bind_of_ok hvalue]
      refine ⟨fun hresult => ?_, fun hresult => ?_⟩
      · cases hresult
      · cases hresult
        refine ⟨.executing (.return_ e t) :: .evaluating e :: (act m).events, e, t, [], ?_,
          List.forall_mem_nil _⟩
        simp [evaluation, hact, pure]

theorem Settles.forEach {step : Value → Traced Flow} (h : ∀ value, Settles (step value))
    {last : Value} (hlast : last.errorCode? = none) (values : List Value) :
    Settles (Traced.forEach step last values) := by
  induction values generalizing last with
  | nil => exact settles_completed hlast
  | cons value values ih => exact (h value).andThen (fun _ hlast => ih hlast) fun _ => rfl

end Traced

open Traced

mutual

theorem Stmt.settles (host : Host) (s : Stmt) : Settles (execution s (s.steps host)) := by
  cases s with
  | expr e => exact (settles_demanded e.token fun v hv => settles_completed hv).execution _
  | block body => exact (Stmt.settles_all host rfl body).execution _
  | return_ e t => exact settles_return e t (e.steps host)
  | if_ conditions consequences otherwise t =>
    exact (Stmt.settles_branches host (Stmt.settles_else host otherwise) conditions
      consequences).execution _
  | for_ var iterable body t =>
    refine (settles_demanded iterable.token fun value hvalue => ?_).execution _
    cases value.aggregate? with
    | none => exact settles_throw _
    | some aggregate =>
      exact Settles.forEach (fun item => Settles.bind fun _ => body.settles host) rfl _
  | try_ body arms t =>
    refine ((body.settles host).observe_bind (fun way => rfl) fun fault => ?_).execution _
    cases fault with
    | raised code location => exact Arm.settles host code (settles_throw _) arms
    | unknownFunction name location => exact settles_throw _
    | unimplementedVerb verb location => exact settles_throw _

theorem Stmt.settles_all (host : Host) {last : Value} (hlast : last.errorCode? = none)
    (ss : List Stmt) : Settles (Stmt.stepsAll host last ss) := by
  cases ss with
  | nil => exact settles_completed hlast
  | cons s ss =>
    exact (s.settles host).andThen (fun _ hlast => Stmt.settles_all host hlast ss) fun _ => rfl

theorem Stmt.settles_else (host : Host) (otherwise : Option Stmt) :
    Settles (Stmt.stepsElse host otherwise) := by
  cases otherwise with
  | none => exact settles_completed rfl
  | some s => exact s.settles host

theorem Stmt.settles_branches (host : Host) {otherwise : Traced Flow} (ho : Settles otherwise)
    (conditions : List Expr) (bodies : List Stmt) :
    Settles (Stmt.stepsBranches host otherwise conditions bodies) := by
  cases conditions with
  | nil => cases bodies <;> exact ho
  | cons condition conditions =>
    cases bodies with
    | nil => exact ho
    | cons body bodies =>
      refine settles_demanded condition.token fun value _ => ?_
      split
      · exact body.settles host
      · exact Stmt.settles_branches host ho conditions bodies

theorem Arm.settles (host : Host) (code : ErrorCode) {unhandled : Traced Flow}
    (hu : Settles unhandled) (arms : List Arm) : Settles (Arm.steps host code unhandled arms) := by
  cases arms with
  | nil => exact hu
  | cons arm arms =>
    obtain ⟨binding, filters, body, t⟩ := arm
    refine Settles.bind fun selected => ?_
    split
    · cases binding with
      | none => exact body.settles host
      | some name => exact Settles.bind fun _ => body.settles host
    · exact Arm.settles host code hu arms

end

/-! ### What a statement evaluates itself -/

namespace Event

/-- How the event changes how much is under way. -/
def delta : Event → ℤ
  | evaluating _ | executing _ => 1
  | evaluated _ _ _ | executed _ _ _ => -1

/-- How much has begun in the events and not ended. -/
def pending (events : List Event) : ℤ := (events.map delta).sum

@[simp]
theorem pending_nil : pending [] = 0 := rfl

@[simp]
theorem pending_cons (event : Event) (events : List Event) :
    pending (event :: events) = event.delta + pending events := by
  rw [pending, List.map_cons, List.sum_cons, pending]

@[simp]
theorem pending_append (events events' : List Event) :
    pending (events ++ events') = pending events + pending events' := by
  rw [pending, List.map_append, List.sum_append, pending, pending]

/-- Whatever begins ends, and nothing else ends. -/
structure Balanced (events : List Event) : Prop where
  started : ∀ {before after}, events = before ++ after → 0 ≤ pending before
  finished : pending events = 0

variable {events events' before after : List Event} {opening closing event : Event}

theorem balanced_nil : Balanced [] := by
  refine ⟨fun h => ?_, rfl⟩
  obtain ⟨rfl, _⟩ := List.append_eq_nil_iff.mp h.symm
  exact le_rfl

theorem Balanced.append (h : Balanced events) (h' : Balanced events') :
    Balanced (events ++ events') := by
  refine ⟨fun hsplit => ?_, by rw [pending_append, h.finished, h'.finished, add_zero]⟩
  rcases List.append_eq_append_iff.mp hsplit with ⟨mid, rfl, hmid⟩ | ⟨mid, hmid, _⟩
  · rw [pending_append, h.finished, zero_add]
    exact h'.started hmid
  · exact h.started hmid

theorem Balanced.enclosed (h : Balanced events) (hopening : opening.delta = 1)
    (hclosing : closing.delta = -1) : Balanced (opening :: (events ++ [closing])) := by
  refine ⟨fun {before after} hsplit => ?_, by simp [hopening, hclosing, h.finished]⟩
  cases before with
  | nil => exact le_rfl
  | cons first before =>
    obtain ⟨rfl, hrest⟩ := List.cons_eq_cons.mp hsplit
    rw [pending_cons, hopening]
    rcases List.append_eq_append_iff.mp hrest with ⟨mid, rfl, hmid⟩ | ⟨mid, hmid, _⟩
    · rcases List.append_eq_singleton_iff.mp hmid.symm with ⟨rfl, _⟩ | ⟨rfl, _⟩
      · simp [h.finished]
      · simp [h.finished, hclosing]
    · have := h.started hmid
      omega

/-- Between its beginning and its end everything ends that begins, so it ends but once. -/
theorem Balanced.eq_closing (h : Balanced events) (hopening : opening.delta = 1)
    (hevent : event.delta = -1)
    (hsplit : opening :: (events ++ [closing]) = before ++ event :: after)
    (hpending : pending before = 1) : event = closing ∧ after = [] := by
  cases before with
  | nil => simp at hpending
  | cons first before =>
    obtain ⟨rfl, hrest⟩ := List.cons_eq_cons.mp hsplit
    rw [pending_cons, hopening] at hpending
    rcases append_eq_append_cons hrest with ⟨mid, hinner, _⟩ | ⟨mid, _, hlast⟩
    · have hended : events = (before ++ [event]) ++ mid := by simpa using hinner
      have hnegative := h.started hended
      rw [pending_append, pending_cons, hevent, pending_nil] at hnegative
      omega
    · cases mid with
      | nil =>
        obtain ⟨rfl, rfl⟩ := List.cons_eq_cons.mp hlast
        exact ⟨rfl, rfl⟩
      | cons _ mid => simp at hlast

end Event

open Event (Balanced pending)

namespace Traced

variable {α β : Type} {P : Expr → Prop}

theorem balanced_bind {act : Traced α} {k : α → Traced β} (h : ∀ m, Balanced (act m).events)
    (hk : ∀ a m, Balanced (k a m).events) (m : Machine) : Balanced ((act >>= k) m).events := by
  rcases bind_cases act k m with ⟨f, m', _, hbind⟩ | ⟨a, m', _, hbind⟩
  · rw [hbind]
    exact h m
  · rw [hbind]
    exact (h m).append (hk a m')

theorem compatible_balanced (host : Host) :
    Compatible host fun _ act _ => ∀ m, Balanced (act m).events where
  silent _ _ := Event.balanced_nil
  bind h hk := balanced_bind h hk
  observe {_ _ act _ _ _} h hk _ :=
    have hobserved : ∀ m, Balanced (observe act m).events := h
    balanced_bind hobserved hk
  evaluation _ h m := (h m).enclosed rfl rfl
  execution _ h m := (h m).enclosed rfl rfl

/-- What the action evaluates itself, and not within something else, has `P`. -/
structure Evaluates (P : Expr → Prop) (act : Traced α) : Prop where
  balanced : ∀ m, Balanced (act m).events
  own : ∀ {m before e outcome m' after},
    (act m).events = before ++ .evaluated e outcome m' :: after → pending before = 1 → P e

theorem evaluates_silent (act : Action α) : Evaluates P (silent act) := by
  refine ⟨fun _ => Event.balanced_nil, fun h => ?_⟩
  exact absurd h.symm (List.append_ne_nil_of_right_ne_nil _ (List.cons_ne_nil _ _))

theorem Evaluates.bind {act : Traced α} {k : α → Traced β} (h : Evaluates P act)
    (hk : ∀ a, Evaluates P (k a)) : Evaluates P (act >>= k) := by
  refine ⟨balanced_bind h.balanced fun a => (hk a).balanced,
    fun {m before e outcome m' after} hevents hpending => ?_⟩
  rcases bind_cases act k m with ⟨f, m', _, hbind⟩ | ⟨a, m', _, hbind⟩
  · rw [hbind] at hevents
    exact h.own hevents hpending
  · rw [hbind] at hevents
    rcases Event.append_eq_append_cons hevents with ⟨mid, hfirst, _⟩ | ⟨mid, rfl, hsecond⟩
    · exact h.own hfirst hpending
    · rw [Event.pending_append, (h.balanced m).finished, zero_add] at hpending
      exact (hk a).own hsecond hpending

theorem Evaluates.observe_bind {act : Traced α} {k : Except Fault α → Traced β}
    (h : Evaluates P act) (hk : ∀ outcome, Evaluates P (k outcome)) :
    Evaluates P (observe act >>= k) := by
  have hobserved : Evaluates P (observe act) := ⟨h.balanced, h.own⟩
  exact hobserved.bind hk

theorem Evaluates.ite {c : Prop} [Decidable c] {act act' : Traced α} (h : Evaluates P act)
    (h' : Evaluates P act') : Evaluates P (if c then act else act') := by
  split <;> assumption

/-- What an expression evaluates is evaluated within it. -/
theorem own_of_evaluation {host : Host} {e e' : Expr} {m m' : Machine} {before after : List Event}
    {outcome : Except Fault Value}
    (hevents : (evaluation e (e.steps host) m).events =
      before ++ .evaluated e' outcome m' :: after) (hpending : pending before = 1) :
    e' = e ∧ (evaluation e (e.steps host) m).result = (outcome, m') ∧ after = [] := by
  have hbalanced := e.steps_related (compatible_balanced host) m
  obtain ⟨hclosing, hafter⟩ := hbalanced.eq_closing rfl rfl hevents hpending
  obtain ⟨rfl, rfl, rfl⟩ := Event.evaluated.inj hclosing
  exact ⟨rfl, rfl, hafter⟩

theorem evaluates_evaluation (host : Host) {e : Expr} (he : P e) :
    Evaluates P (evaluation e (e.steps host)) := by
  have c := compatible_balanced host
  refine ⟨c.evaluation e (e.steps_related c), fun hevents hpending => ?_⟩
  obtain ⟨rfl, _, _⟩ := own_of_evaluation hevents hpending
  exact he

/-- What a statement evaluates is evaluated within it. -/
theorem evaluates_execution (host : Host) (s : Stmt) :
    Evaluates P (execution s (s.steps host)) := by
  have c := compatible_balanced host
  refine ⟨c.execution s (s.steps_related c), fun {m _ _ _ _ _} hevents hpending => ?_⟩
  obtain ⟨heq, _⟩ := (s.steps_related c m).eq_closing rfl rfl hevents hpending
  cases heq

/-- An error that the action evaluates itself is raised at once, where it came up. -/
def Demands (act : Traced Flow) : Prop :=
  ∀ ⦃m before e code m' after⦄,
    (act m).events = before ++ .evaluated e (.ok (.error code)) m' :: after →
      pending before = 1 →
      after = [] ∧ (act m).result = (.error (.raised code e.token.location), m')

theorem Evaluates.demands {act : Traced Flow} (h : Evaluates (fun _ => False) act) :
    Demands act :=
  fun _ _ _ _ _ _ hevents hpending => (h.own hevents hpending).elim

theorem Demands.after {act : Traced α} {k : α → Traced Flow} (h : Evaluates (fun _ => False) act)
    (hk : ∀ a, Demands (k a)) : Demands (act >>= k) := by
  intro m before e code m' after hevents hpending
  rcases bind_cases act k m with ⟨f, m₁, _, hbind⟩ | ⟨a, m₁, _, hbind⟩
  · rw [hbind] at hevents
    exact (h.own hevents hpending).elim
  · rw [hbind] at hevents ⊢
    rcases Event.append_eq_append_cons hevents with ⟨mid, hfirst, _⟩ | ⟨mid, rfl, hsecond⟩
    · exact (h.own hfirst hpending).elim
    · rw [Event.pending_append, (h.balanced m).finished, zero_add] at hpending
      exact hk a hsecond hpending

theorem demands_demanded (host : Host) (e : Expr) {k : Value → Traced Flow}
    (hk : ∀ v, Demands (k v)) :
    Demands (evaluation e (e.steps host) >>= fun v => silent (demand e.token v) >>= k) := by
  have c := compatible_balanced host
  have hbalanced := c.evaluation e (e.steps_related c)
  intro m before e' code m' after hevents hpending
  rcases bind_cases (evaluation e (e.steps host)) (fun v => silent (demand e.token v) >>= k) m
    with ⟨f, m₁, hfault, hbind⟩ | ⟨v, m₁, hvalue, hbind⟩
  · rw [hbind] at hevents
    obtain ⟨_, hresult, _⟩ := own_of_evaluation hevents hpending
    rw [hfault] at hresult
    cases hresult
  · rw [hbind] at hevents ⊢
    rcases Event.append_eq_append_cons hevents with ⟨mid, hfirst, rfl⟩ | ⟨mid, rfl, hsecond⟩
    · obtain ⟨rfl, hresult, rfl⟩ := own_of_evaluation hfirst hpending
      rw [hvalue] at hresult
      cases hresult
      exact ⟨rfl, rfl⟩
    · rw [Event.pending_append, (hbalanced m).finished, zero_add] at hpending
      cases v with
      | error code' =>
        exact absurd hsecond.symm (List.append_ne_nil_of_right_ne_nil _ (List.cons_ne_nil _ _))
      | _ => exact hk _ hsecond hpending

end Traced

/-! ### Statements -/

/-- The expressions that select the errors a statement handles. -/
def Stmt.filters : Stmt → List Expr
  | .try_ _ arms _ => arms.flatMap fun | .mk _ filters _ _ => filters
  | .expr _ | .block _ | .return_ _ _ | .if_ _ _ _ _ | .for_ _ _ _ _ => []

/-- What the statement makes of an error that an expression of it comes to. -/
def Stmt.settle (s : Stmt) (e : Expr) (code : ErrorCode) : Except Fault Flow :=
  match s with
  | .return_ _ _ => .ok (.returned (.error code))
  | _ => .error (.raised code e.token.location)

open Traced

theorem Stmt.stepsAll_evaluates (host : Host) (last : Value) (ss : List Stmt) :
    Evaluates (fun _ => False) (Stmt.stepsAll host last ss) := by
  induction ss generalizing last with
  | nil => exact evaluates_silent _
  | cons s ss ih =>
    refine (evaluates_execution host s).bind fun flow => ?_
    cases flow with
    | completed last => exact ih last
    | returned value => exact evaluates_silent _

theorem Traced.Evaluates.forEach {P : Expr → Prop} {step : Value → Traced Flow}
    (h : ∀ value, Evaluates P (step value)) (last : Value) (values : List Value) :
    Evaluates P (Traced.forEach step last values) := by
  induction values generalizing last with
  | nil => exact evaluates_silent _
  | cons value values ih =>
    refine (h value).bind fun flow => ?_
    cases flow with
    | completed last => exact ih last
    | returned value => exact evaluates_silent _

theorem Stmt.stepsElse_evaluates (host : Host) (otherwise : Option Stmt) :
    Evaluates (fun _ => False) (Stmt.stepsElse host otherwise) := by
  cases otherwise with
  | none => exact evaluates_silent _
  | some s => exact evaluates_execution host s

theorem Stmt.stepsBranches_demands (host : Host) {otherwise : Traced Flow}
    (ho : Demands otherwise) (conditions : List Expr) (bodies : List Stmt) :
    Demands (Stmt.stepsBranches host otherwise conditions bodies) := by
  induction conditions generalizing bodies with
  | nil => cases bodies <;> exact ho
  | cons condition conditions ih =>
    cases bodies with
    | nil => exact ho
    | cons body bodies =>
      refine demands_demanded host condition fun value => ?_
      split
      · exact (evaluates_execution host body).demands
      · exact ih bodies

theorem Expr.stepsAny_evaluates {P : Expr → Prop} (host : Host) (code : ErrorCode)
    (es : List Expr) (h : ∀ e ∈ es, P e) : Evaluates P (Expr.stepsAny host code es) := by
  induction es with
  | nil => exact evaluates_silent _
  | cons e es ih =>
    obtain ⟨he, hes⟩ := List.forall_mem_cons.mp h
    exact (evaluates_evaluation host he).bind fun value => (evaluates_silent _).ite (ih hes)

theorem Arm.steps_evaluates {P : Expr → Prop} (host : Host) (code : ErrorCode)
    {unhandled : Traced Flow} (hu : Evaluates P unhandled) (arms : List Arm)
    (h : ∀ e ∈ arms.flatMap fun | .mk _ filters _ _ => filters, P e) :
    Evaluates P (Arm.steps host code unhandled arms) := by
  induction arms with
  | nil => exact hu
  | cons arm arms ih =>
    obtain ⟨binding, filters, body, t⟩ := arm
    rw [List.flatMap_cons] at h
    obtain ⟨hfilters, harms⟩ := List.forall_mem_append.mp h
    have hselected : Evaluates P (Traced.anyOr filters (Expr.stepsAny host code filters)) :=
      (evaluates_silent _).ite (Expr.stepsAny_evaluates host code filters hfilters)
    refine hselected.bind fun selected => Evaluates.ite ?_ (ih harms)
    have hbody := evaluates_execution (P := P) host body
    cases binding with
    | none => exact hbody
    | some name => exact (evaluates_silent _).bind fun _ => hbody

theorem Stmt.steps_evaluates_filters (host : Host) (body : Stmt) (arms : List Arm) (t : Token) :
    Evaluates (· ∈ (Stmt.try_ body arms t).filters) ((Stmt.try_ body arms t).steps host) := by
  refine (evaluates_execution host body).observe_bind fun outcome => ?_
  cases outcome with
  | ok flow => exact evaluates_silent _
  | error fault =>
    cases fault with
    | raised code location =>
      exact Arm.steps_evaluates host code (evaluates_silent _) arms fun _ he => he
    | unknownFunction name location => exact evaluates_silent _
    | unimplementedVerb verb location => exact evaluates_silent _

theorem Stmt.steps_demands (host : Host) (s : Stmt) (hreturn : ∀ e t, s ≠ .return_ e t)
    (htry : ∀ body arms t, s ≠ .try_ body arms t) : Demands (s.steps host) := by
  cases s with
  | expr e => exact demands_demanded host e fun v => (evaluates_silent _).demands
  | block body => exact (Stmt.stepsAll_evaluates host _ body).demands
  | return_ e t => exact absurd rfl (hreturn e t)
  | if_ conditions consequences otherwise t =>
    have ho := (Stmt.stepsElse_evaluates host otherwise).demands
    exact Stmt.stepsBranches_demands host ho conditions consequences
  | for_ var iterable body t =>
    refine demands_demanded host iterable fun value => ?_
    have hbody (item : Value) := (evaluates_silent (P := fun _ => False)
      (Action.define var item)).bind fun _ => evaluates_execution host body
    cases value.aggregate? with
    | none => exact (evaluates_silent _).demands
    | some aggregate => exact (Evaluates.forEach hbody _ _).demands
  | try_ body arms t => exact absurd rfl (htry body arms t)

/-- An error that a statement's own expression comes to ends the statement, unless it selects the
errors to handle. -/
theorem Stmt.steps_settle {host : Host} {s : Stmt} {m m' : Machine} {before after : List Event}
    {e : Expr} {code : ErrorCode}
    (hevents : (s.steps host m).events = before ++ .evaluated e (.ok (.error code)) m' :: after)
    (hpending : pending before = 1) :
    e ∈ s.filters ∨ after = [] ∧ (s.steps host m).result = (s.settle e code, m') := by
  cases s with
  | try_ body arms t =>
    exact .inl ((Stmt.steps_evaluates_filters host body arms t).own hevents hpending)
  | return_ returned t =>
    right
    rw [Stmt.steps] at hevents ⊢
    rcases bind_cases (evaluation returned (returned.steps host))
      (fun value => pure (Flow.returned value)) m
      with ⟨f, m₁, hfault, hbind⟩ | ⟨v, m₁, hvalue, hbind⟩
    · rw [hbind] at hevents
      obtain ⟨_, hresult, _⟩ := own_of_evaluation hevents hpending
      rw [hfault] at hresult
      cases hresult
    · rw [hbind] at hevents ⊢
      change (evaluation returned (returned.steps host) m).events ++ [] = _ at hevents
      rw [List.append_nil] at hevents
      obtain ⟨_, hresult, hafter⟩ := own_of_evaluation hevents hpending
      rw [hvalue] at hresult
      cases hresult
      exact ⟨hafter, rfl⟩
  | expr _ | block _ | if_ _ _ _ _ | for_ _ _ _ _ =>
    exact .inr (Stmt.steps_demands host _ (by simp) (by simp) hevents hpending)

theorem Stmt.events_settle {host : Host} {s : Stmt} {m m' : Machine} {before after : List Event}
    {e : Expr} {code : ErrorCode}
    (hevents : s.events host m = before ++ .evaluated e (.ok (.error code)) m' :: after)
    (hpending : pending before = 2) :
    e ∈ s.filters ∨ after = [.executed s (s.settle e code) m'] := by
  cases before with
  | nil => simp at hpending
  | cons first before =>
    obtain ⟨rfl, hrest⟩ := List.cons_eq_cons.mp hevents
    have hbefore : pending before = 1 := by
      rw [Event.pending_cons, Event.delta] at hpending
      omega
    rcases Event.append_eq_append_cons hrest with ⟨mid, hinner, rfl⟩ | ⟨mid, _, hlast⟩
    · refine (Stmt.steps_settle hinner hbefore).imp_right fun hend => ?_
      obtain ⟨rfl, hresult⟩ := hend
      rw [hresult]
      rfl
    · cases mid with
      | nil => simp at hlast
      | cons _ mid => simp at hlast

theorem Stmt.exec_ne_completed_error (host : Host) (s : Stmt) (m m' : Machine) (code : ErrorCode) :
    (s.exec host).run m ≠ (.ok (.completed (.error code)), m') := by
  intro hexec
  have hcode := (s.settles host m).completed ((s.result_steps host m).trans hexec)
  cases hcode

theorem Stmt.returned_of_exec {host : Host} {s : Stmt} {m m' : Machine} {v : Value}
    (h : (s.exec host).run m = (.ok (.returned v), m')) :
    Event.Returned v m' (s.events host m) :=
  (s.settles host m).returned ((s.result_steps host m).trans h)

theorem Stmt.exec_of_run_eq_error {host : Host} {s : Stmt} {m m' : Machine} {code : ErrorCode}
    (h : s.run host m = (.ok (.error code), m')) : ∃ m₁,
      (s.exec host).run { m with environment := m.environment.push } =
        (.ok (.returned (.error code)), m₁) ∧
      m' = { m₁ with environment := m₁.environment.pop } := by
  cases hexec : (s.exec host).run { m with environment := m.environment.push } with
  | mk outcome m₁ =>
    rw [run, hexec] at h
    cases outcome with
    | error f => cases h
    | ok flow =>
      cases flow with
      | completed v =>
        cases h
        exact absurd hexec (s.exec_ne_completed_error host _ m₁ code)
      | returned v =>
        cases h
        exact ⟨m₁, rfl, rfl⟩

/-- No statement completes with an error value. A run yields one only by a return statement whose
expression came to it, after which everything ends that still runs. Any other that an expression of
a statement comes to is raised there and ends the statement, unless it selects what to handle. -/
theorem Stmt.error_leaves_by_return (host : Host) (s : Stmt) (m m' : Machine) (code : ErrorCode) :
    (s.exec host).run m ≠ (.ok (.completed (.error code)), m') ∧
    (s.run host m = (.ok (.error code), m') → ∃ before e t after m₀ m₁,
      s.events host { m with environment := m.environment.push } =
        before ++ .evaluated e (.ok (.error code)) m₁ ::
          .executed (.return_ e t) (.ok (.returned (.error code))) m₁ :: after ∧
      (e.eval host).run m₀ = (.ok (.error code), m₁) ∧
      (∀ later ∈ after, ∃ s', later = .executed s' (.ok (.returned (.error code))) m₁) ∧
      m' = { m₁ with environment := m₁.environment.pop }) ∧
    ∀ before e after, s.events host m = before ++ .evaluated e (.ok (.error code)) m' :: after →
      pending before = 2 → e ∈ s.filters ∨ after = [.executed s (s.settle e code) m'] := by
  refine ⟨s.exec_ne_completed_error host m m' code, fun hrun => ?_, fun _ _ _ => events_settle⟩
  obtain ⟨m₁, hexec, hpop⟩ := exec_of_run_eq_error hrun
  obtain ⟨before, e, t, after, hevents, hafter⟩ := returned_of_exec hexec
  have hmem : .evaluated e (.ok (.error code)) m₁ ∈
      s.events host { m with environment := m.environment.push } :=
    hevents ▸ List.mem_append_right before List.mem_cons_self
  obtain ⟨m₀, heval⟩ := Stmt.genuine_of_mem_events hmem
  exact ⟨before, e, t, after, m₀, m₁, hevents, heval, hafter, hpop⟩

/-- An error that an expression statement comes to is raised, and a handler returns another. -/
theorem Stmt.error_leaves_by_return_handled :
    let t : Token := .endOfInput none
    let failing : Expr := .literal (.error .type) t
    let missing : Except Fault Value := .ok (.error .varNotFound)
    let body : Stmt := .expr failing
    let s : Stmt := .try_ body [.mk none [] (.return_ (.identifier "x" t) t) t] t
    let host : Host := ⟨10, .standard⟩
    let m : Machine := ⟨⟨[], .empty⟩, .initial⟩
    let opened : Machine := { m with environment := m.environment.push }
    let raised : List Event := [.executed body (.error (.raised .type t.location)) m]
    (s.exec host).run m ≠ (.ok (.completed (.error .varNotFound)), m) ∧
    s.run host m = (missing, m) ∧
    (∃ before e t after m₀ m₁,
      s.events host opened = before ++ .evaluated e missing m₁ ::
        .executed (.return_ e t) (.ok (.returned (.error .varNotFound))) m₁ :: after ∧
      (e.eval host).run m₀ = (missing, m₁) ∧
      (∀ later ∈ after, ∃ s', later = .executed s' (.ok (.returned (.error .varNotFound))) m₁) ∧
      m = { m₁ with environment := m₁.environment.pop }) ∧
    body.events host m = [.executing body, .evaluating failing] ++
      .evaluated failing (.ok (.error .type)) m :: raised ∧
    (failing ∈ body.filters ∨ raised = [.executed body (body.settle failing .type) m]) := by
  intro t failing missing body s host m opened raised
  have hrun : s.run host m = (missing, m) := by cbv
  have hevents : body.events host m = [.executing body, .evaluating failing] ++
      .evaluated failing (.ok (.error .type)) m :: raised := by cbv
  have hpending : pending [.executing body, .evaluating failing] = 2 := by simp [Event.delta]
  obtain ⟨hne, hreturned, _⟩ := error_leaves_by_return host s m m .varNotFound
  obtain ⟨_, _, hsettled⟩ := error_leaves_by_return host body m m .type
  exact ⟨hne, hrun, hreturned hrun, hevents, hsettled _ _ _ hevents hpending⟩

end MooScript
