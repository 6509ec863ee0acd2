import Mathlib
import MooScript.Builtin.Standard
import MooScript.Proofs.Evaluation.Simulation

/-! Unknown functions and unimplemented verbs end an evaluation whatever surrounds them: no handler
takes them, and nothing is evaluated after them. -/
namespace MooScript

/-- The event ends something with the fault, on the machine. -/
def Event.EndsWith (f : Fault) (m : Machine) : Event → Prop
  | evaluated _ outcome after => outcome = .error f ∧ after = m
  | executed _ outcome after => outcome = .error f ∧ after = m
  | evaluating _ | executing _ => False

theorem Event.endsWith_evaluated {f : Fault} {m : Machine} {e : Expr}
    {result : Except Fault Value × Machine} :
    (evaluated e result.1 result.2).EndsWith f m ↔ result = (.error f, m) := by
  rw [Prod.ext_iff]
  rfl

theorem Event.endsWith_executed {f : Fault} {m : Machine} {s : Stmt}
    {result : Except Fault Flow × Machine} :
    (executed s result.1 result.2).EndsWith f m ↔ result = (.error f, m) := by
  rw [Prod.ext_iff]
  rfl

/-- When something in it ends with a fatal fault, it ends with that fault on the same machine, and
so does everything that still ends; nothing begins any more. -/
def Trace.Unwinds {α : Type} (t : Trace α) : Prop :=
  ∀ ⦃before : List Event⦄ ⦃event : Event⦄ ⦃after : List Event⦄ ⦃f : Fault⦄ ⦃m : Machine⦄,
    t.events = before ++ event :: after → f.isFatal = true → event.EndsWith f m →
      t.result = (.error f, m) ∧ ∀ later ∈ after, later.EndsWith f m

namespace Trace

variable {α : Type} {t : Trace α}

/-- What encloses it ends as it does. -/
theorem Unwinds.enclosed {opening closing : Event} (h : t.Unwinds)
    (hopening : ∀ f m, ¬ opening.EndsWith f m)
    (hclosing : ∀ f m, closing.EndsWith f m ↔ t.result = (.error f, m)) :
    Unwinds ⟨t.result, opening :: (t.events ++ [closing])⟩ := by
  intro before event after f m hevents hf hevent
  cases before with
  | nil =>
    obtain ⟨rfl, _⟩ := List.cons_eq_cons.mp hevents
    exact absurd hevent (hopening f m)
  | cons first before =>
    obtain ⟨_, hevents⟩ := List.cons_eq_cons.mp hevents
    rcases Event.append_eq_append_cons hevents with ⟨mid, hinner, rfl⟩ | ⟨mid, _, hlast⟩
    · obtain ⟨hresult, hmid⟩ := h hinner hf hevent
      have hclosed := (hclosing f m).mpr hresult
      exact ⟨hresult, List.forall_mem_append.mpr ⟨hmid, List.forall_mem_singleton.mpr hclosed⟩⟩
    · cases mid with
      | nil =>
        obtain ⟨rfl, rfl⟩ := List.cons_eq_cons.mp hlast
        exact ⟨(hclosing f m).mp hevent, List.forall_mem_nil _⟩
      | cons _ mid => simp at hlast

end Trace

namespace Traced

theorem compatible_unwinds (host : Host) :
    Compatible host fun _ act _ => ∀ m, (act m).Unwinds where
  silent act m before event after f m' h := by
    exact absurd h.symm (List.append_ne_nil_of_right_ne_nil _ (List.cons_ne_nil _ _))
  bind {_ _ act _ k _} h hk m := by
    intro before event after f m' hevents hf hevent
    rcases bind_cases act k m with ⟨f₁, m₁, hact, hbind⟩ | ⟨a, m₁, hact, hbind⟩
    · rw [hbind] at hevents ⊢
      obtain ⟨hresult, hafter⟩ := h m hevents hf hevent
      rw [hact] at hresult
      cases hresult
      exact ⟨rfl, hafter⟩
    · rw [hbind] at hevents ⊢
      rcases Event.append_eq_append_cons hevents with ⟨mid, hfirst, _⟩ | ⟨mid, _, hsecond⟩
      · have hresult := (h m hfirst hf hevent).1
        rw [hact] at hresult
        cases hresult
      · exact hk a m₁ hsecond hf hevent
  observe {_ _ act _ k _} h hk hthrow m := by
    rw [observe_bind]
    intro before event after f m' hevents hf hevent
    rcases Event.append_eq_append_cons hevents with ⟨mid, hfirst, rfl⟩ | ⟨mid, _, hsecond⟩
    · obtain ⟨hresult, hafter⟩ := h m hfirst hf hevent
      rw [hresult, hthrow f hf]
      exact ⟨rfl, by rwa [silent, List.append_nil]⟩
    · exact hk _ _ hsecond hf hevent
  evaluation e h m := (h m).enclosed (fun _ _ => id) fun _ _ => Event.endsWith_evaluated
  execution s h m := (h m).enclosed (fun _ _ => id) fun _ _ => Event.endsWith_executed

end Traced

open Traced (compatible_unwinds)

theorem Expr.eval_of_endsWith {host : Host} {e : Expr} {m m' : Machine} {before after : List Event}
    {event : Event} {f : Fault} (h : e.events host m = before ++ event :: after)
    (hf : f.isFatal = true) (hevent : event.EndsWith f m') :
    (e.eval host).run m = (.error f, m') ∧ ∀ later ∈ after, later.EndsWith f m' := by
  have c := compatible_unwinds host
  obtain ⟨hresult, hafter⟩ := c.evaluation e (e.steps_related c) m h hf hevent
  exact ⟨e.result_steps host m ▸ hresult, hafter⟩

theorem Stmt.exec_of_endsWith {host : Host} {s : Stmt} {m m' : Machine} {before after : List Event}
    {event : Event} {f : Fault} (h : s.events host m = before ++ event :: after)
    (hf : f.isFatal = true) (hevent : event.EndsWith f m') :
    (s.exec host).run m = (.error f, m') ∧ ∀ later ∈ after, later.EndsWith f m' := by
  have c := compatible_unwinds host
  obtain ⟨hresult, hafter⟩ := c.execution s (s.steps_related c) m h hf hevent
  exact ⟨s.result_steps host m ▸ hresult, hafter⟩

/-- Nothing takes a fatal fault: when anything within an evaluation, an execution or a run ends with
one, at any depth, the whole ends with it on the machine of that moment (a run closes its scope),
and whatever still happens is the end of what encloses it. -/
theorem Stmt.fatal_fault_unwinds (host : Host) (f : Fault) (hf : f.isFatal = true) (m m' : Machine)
    (before after : List Event) (event : Event) (hevent : event.EndsWith f m') :
    (∀ e : Expr, e.events host m = before ++ event :: after →
      (e.eval host).run m = (.error f, m') ∧ ∀ later ∈ after, later.EndsWith f m') ∧
    (∀ s : Stmt, s.events host m = before ++ event :: after →
      (s.exec host).run m = (.error f, m') ∧ ∀ later ∈ after, later.EndsWith f m') ∧
    ∀ s : Stmt,
      s.events host { m with environment := m.environment.push } = before ++ event :: after →
      s.run host m = (.error f, { m' with environment := m'.environment.pop }) ∧
        ∀ later ∈ after, later.EndsWith f m' := by
  refine ⟨fun e h => e.eval_of_endsWith h hf hevent, fun s h => s.exec_of_endsWith h hf hevent,
    fun s h => ?_⟩
  obtain ⟨hexec, hafter⟩ := s.exec_of_endsWith h hf hevent
  refine ⟨?_, hafter⟩
  rw [run, hexec]
  rfl

/-- A call of no function, in an expression and in a statement that would take any error. -/
theorem Stmt.fatal_fault_unwinds_nested :
    let t : Token := .endOfInput none
    let one : Expr := .literal (.integer 1) t
    let call : Expr := .call (.identifier "f" t) [one] t
    let minus : Expr := .unary .neg call t
    let guarded : Expr := .recover minus [] one t
    let block : Stmt := .block [.expr guarded, .expr one]
    let s : Stmt := .try_ block [.mk none [] (.expr one) t] t
    let fault : Fault := .unknownFunction "f" t.location
    let host : Host := ⟨10, .standard⟩
    let m : Machine := ⟨.initial, .initial⟩
    let m' : Machine := { m with environment := m.environment.push }
    let before : List Event := [.executing s, .executing block, .executing (.expr guarded),
      .evaluating guarded, .evaluating minus, .evaluating call, .evaluating one,
      .evaluated one (.ok (.integer 1)) m']
    let after : List Event := [.evaluated minus (.error fault) m',
      .evaluated guarded (.error fault) m', .executed (.expr guarded) (.error fault) m',
      .executed block (.error fault) m', .executed s (.error fault) m']
    s.events host m' = before ++ .evaluated call (.error fault) m' :: after ∧
      s.run host m = (.error fault, { m' with environment := m'.environment.pop }) ∧
      ∀ later ∈ after, later.EndsWith fault m' := by
  intro t one call minus guarded block s fault host m m' before after
  have hevents : s.events host m' = before ++ .evaluated call (.error fault) m' :: after := by cbv
  exact ⟨hevents, (fatal_fault_unwinds host fault rfl m m' before after
    (.evaluated call (.error fault) m') ⟨rfl, rfl⟩).2.2 s hevents⟩

end MooScript
