import Mathlib
import MooScript.Builtin.Standard
import MooScript.Proofs.Evaluation.Simulation

/-! A larger limit of ranges. It reaches an evaluation only through ranges that the smaller one
refuses; where there are none, nothing changes. -/
namespace MooScript

open Traced (silent evaluation execution)

/-- A range came to the error of the quota, as data. -/
def Event.overruns : Event → Bool
  | evaluated (.range _ _ _) (.ok (.error .quota)) _ => true
  | _ => false

/-- What a limit allows, a larger one makes the same. -/
theorem Ordinal.range_of_le {a b : Value} {limit limit' : Nat} (h : limit ≤ limit')
    (hquota : Ordinal.range a b limit ≠ .error .quota) :
    Ordinal.range a b limit' = Ordinal.range a b limit := by
  unfold Ordinal.range at hquota ⊢
  split
  next lo hi hlo hhi =>
    simp only [hlo, hhi] at hquota
    by_cases hkind : lo.kind ≠ hi.kind
    · rw [if_pos hkind, if_pos hkind]
    · rw [if_neg hkind] at hquota
      rw [if_neg hkind, if_neg hkind]
      by_cases hcount : limit < (hi.position - lo.position + 1).toNat
      · exact absurd (if_pos hcount) hquota
      · have hcount' : ¬ limit' < (hi.position - lo.position + 1).toNat := by omega
        simp only [if_neg hcount, if_neg hcount']
  next => rfl

namespace Traced

variable {α β : Type} {host : Host} {limit : Nat}

/-- The action does what the traced one does when no range overruns and the outcome is accepted. -/
def Agrees (accepted : Except Fault α → Prop) (act : Traced α) (act' : Action α) : Prop :=
  ∀ m, (∀ event ∈ (act m).events, event.overruns = false) → accepted (act m).result.1 →
    act'.run m = (act m).result

theorem agrees_silent {accepted : Except Fault α → Prop} (act : Action α) :
    Agrees accepted (silent act) act := fun _ _ _ => rfl

/-- Only what comes last has to be accepted. -/
theorem Agrees.bind {accepted : Except Fault β → Prop} {act : Traced α} {act' : Action α}
    {k : α → Traced β} {k' : α → Action β} (h : Agrees (fun _ => True) act act')
    (hk : ∀ a, Agrees accepted (k a) (k' a)) : Agrees accepted (act >>= k) (act' >>= k') := by
  intro m hevents haccepted
  rw [Action.run_bind]
  rcases bind_cases act k m with ⟨f, m', hact, hbind⟩ | ⟨a, m', hact, hbind⟩
  · rw [hbind] at hevents ⊢
    rw [h m hevents trivial, hact]
    rfl
  · rw [hbind] at hevents haccepted ⊢
    obtain ⟨hfirst, hsecond⟩ := List.forall_mem_append.mp hevents
    rw [h m hfirst trivial, hact]
    exact hk a m' hsecond haccepted

theorem combines_agrees : Combines fun _ => Agrees fun _ => True where
  pure a := agrees_silent (pure a)
  throw f := agrees_silent (throw f)
  bind := Agrees.bind
  observe {_ _ act act' k k'} h hk _ m := by
    intro hevents _
    rw [observe_bind] at hevents ⊢
    obtain ⟨hfirst, hsecond⟩ := List.forall_mem_append.mp hevents
    have hrest := hk _ _ hsecond trivial
    rw [← h m hfirst trivial] at hrest ⊢
    exact hrest

/-- A range that does not come to the error of the quota is the same under a larger limit. -/
theorem agrees_range (h : host.maxRangeLength ≤ limit) (lo hi : Value) :
    Agrees (· ≠ .ok (.error .quota)) (silent (Action.range host lo hi))
      (Action.range { host with maxRangeLength := limit } lo hi) := by
  intro m _ haccepted
  have hquota : Ordinal.range lo hi host.maxRangeLength ≠ .error .quota := by
    intro hrange
    refine haccepted ?_
    change ((Action.range host lo hi).run m).1 = _
    simp only [Action.range, hrange]
    rfl
  change _ = (Action.range host lo hi).run m
  simp only [Action.range, Ordinal.range_of_le h hquota]

theorem simulation_agrees (h : host.maxRangeLength ≤ limit) :
    Simulation host { host with maxRangeLength := limit } (fun _ => True)
      (fun _ => Agrees fun _ => True) fun e act => Agrees (fun _ => True) (evaluation e act) where
  toCombines := combines_agrees
  define _ _ := agrees_silent _
  lookup _ _ := agrees_silent _
  property _ _ := agrees_silent _
  call _ _ _ := agrees_silent _
  range first last t hfirst hlast m hevents _ := by
    have hrange : Agrees (· ≠ .ok (.error .quota)) ((Expr.range first last t).steps host)
        ((Expr.range first last t).eval { host with maxRangeLength := limit }) := by
      rw [Expr.steps, Expr.eval]
      refine hfirst.bind fun lo => (combines_agrees.demand _ _).bind fun lo => ?_
      exact hlast.bind fun hi => (combines_agrees.demand _ _).bind fun hi => agrees_range h lo hi
    obtain ⟨_, hinner⟩ := List.forall_mem_cons.mp hevents
    obtain ⟨hsteps, hend⟩ := List.forall_mem_append.mp hinner
    refine hrange m hsteps fun hquota => ?_
    -- The end of the range would tell of the overrun.
    have hlast := List.forall_mem_singleton.mp hend
    rw [hquota] at hlast
    cases hlast
  step {e act act'} hact m hevents _ := by
    obtain ⟨_, hinner⟩ := List.forall_mem_cons.mp hevents
    exact hact m (List.forall_mem_append.mp hinner).1 trivial
  evaluation _ := id
  execution s hs m hevents _ := by
    obtain ⟨_, hinner⟩ := List.forall_mem_cons.mp hevents
    exact hs m (List.forall_mem_append.mp hinner).1 trivial

end Traced

/-- A larger limit is safe: an evaluation, an execution or a run in which no range comes to the
error of the quota has the same outcome and leaves the same machine under the larger limit. Where
else that error comes from does not matter. -/
theorem Stmt.run_of_larger_limit (host : Host) {limit : Nat} (h : host.maxRangeLength ≤ limit)
    (m : Machine) :
    let larger : Host := { host with maxRangeLength := limit }
    (∀ e : Expr, (∀ event ∈ e.events host m, event.overruns = false) →
      (e.eval larger).run m = (e.eval host).run m) ∧
    (∀ s : Stmt, (∀ event ∈ s.events host m, event.overruns = false) →
      (s.exec larger).run m = (s.exec host).run m) ∧
    ∀ s : Stmt, (∀ event ∈ s.events host { m with environment := m.environment.push },
        event.overruns = false) →
      s.run larger m = s.run host m := by
  intro larger
  have c := Traced.simulation_agrees h
  have heval (e : Expr) (m : Machine) (hevents : ∀ event ∈ e.events host m,
      event.overruns = false) : (e.eval larger).run m = (e.eval host).run m := by
    rw [← e.result_steps host m]
    exact e.simulated c (fun x (_ : x ∈ e.names true) => trivial) m hevents trivial
  have hexec (s : Stmt) (m : Machine) (hevents : ∀ event ∈ s.events host m,
      event.overruns = false) : (s.exec larger).run m = (s.exec host).run m := by
    have hs := c.execution s (s.simulated c fun x (_ : x ∈ s.names true) => trivial)
    rw [hs m hevents trivial, ← s.result_steps host m]
    rfl
  refine ⟨fun e => heval e m, fun s => hexec s m, fun s hevents => ?_⟩
  rw [Stmt.run, Stmt.run, hexec s _ hevents]

/-- A range as long as the limit, beside the error of the quota as a value that is raised in the
end. -/
theorem Stmt.run_of_larger_limit_raised :
    let t : Token := .endOfInput none
    let range : Expr := .range (.literal (.integer 1) t) (.literal (.integer 2) t) t
    let quota : Expr := .literal (.error .quota) t
    let s : Stmt := .block [.expr (.list [range, quota] t), .expr quota]
    let host : Host := ⟨2, .standard⟩
    let m : Machine := ⟨⟨[], .empty⟩, .initial⟩
    host.maxRangeLength ≤ 5 ∧ s.run { host with maxRangeLength := 5 } m = s.run host m ∧
      s.run host m = (.error (.raised .quota t.location), m) := by
  intro t range quota s host m
  have hevents : (s.events host { m with environment := m.environment.push }).all
      (fun event => event.overruns == false) = true := by cbv
  have hlimit : host.maxRangeLength ≤ 5 := by decide
  refine ⟨hlimit, (run_of_larger_limit host hlimit m).2.2 s fun event hevent => ?_, by cbv⟩
  exact eq_of_beq (List.all_eq_true.mp hevents event hevent)

end MooScript
