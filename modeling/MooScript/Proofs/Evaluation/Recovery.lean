import MooScript.Proofs.Evaluation.Alike

/-! The two forms of recovery. A `try` statement sees an error only once it is raised, a `try`
expression also as data; where the body is an expression and nothing is bound they do the same. -/
namespace MooScript

variable {α β : Type} {host : Host} {outcome : Except Fault Value} {code : ErrorCode}

namespace Action

/-- Demands what an action comes to, as the value of a statement. -/
def completing (token : Token) (act : Action Value) : Action Flow := do
  let value ← demand token (← act)
  return .completed value

theorem Alike.completing {act act' : Action Value} (h : act.Alike act') (t t' : Token) :
    (completing t act).Alike (completing t' act') :=
  h.demand_bind fun _ => .refl _

theorem completing_observe_bind (t : Token) (act : Action α) (k : Except Fault α → Action Value) :
    completing t (observe act >>= k) = observe act >>= fun outcome => completing t (k outcome) :=
  bind_assoc _ _ _

/-- To observe an action that goes on from another, it is enough to observe that one. -/
theorem observe_completing_bind (t : Token) (act : Action Value)
    (k : Except Fault Flow → Action β) :
    observe (completing t act) >>= k =
      observe act >>= fun outcome => observe (completing t (liftExcept outcome)) >>= k := by
  funext m
  change (k ((completing t act).run m).1).run ((completing t act).run m).2 =
    (k ((completing t (liftExcept (act.run m).1)).run (act.run m).2).1).run
      ((completing t (liftExcept (act.run m).1)).run (act.run m).2).2
  have hrun : (completing t act).run m =
      (completing t (liftExcept (act.run m).1)).run (act.run m).2 := by
    rw [completing, run_bind, completing, run_bind]
    cases (act.run m).1 <;> rfl
  rw [hrun]

theorem completed_of_completing {t : Token} {act : Action Value} {m : Machine} {flow : Flow}
    (h : ((completing t act).run m).1 = .ok flow) : ∃ value, flow = .completed value := by
  rw [completing, run_bind] at h
  cases hact : (act.run m).1 with
  | error f =>
    rw [hact] at h
    cases h
  | ok value =>
    rw [hact] at h
    cases value with
    | error code => cases h
    | _ =>
      cases h
      exact ⟨_, rfl⟩

end Action

open MooScript.Action

/-- What the statement does with an error is what the expression does, if they leave what they do
not select alike. -/
theorem Arm.handle_alike (filters : List Expr) (alternative : Expr) {unhandled : Action Flow}
    (t t' : Token) (h : unhandled.Alike (completing t' (liftExcept outcome))) :
    (Arm.handle host code unhandled [.mk none filters (.expr alternative) t]).Alike
      (completing t' do
        if ← anyOr filters (Expr.matchesAny host code filters) then alternative.eval host
        else liftExcept outcome) := by
  rw [completing, bind_assoc]
  refine (Action.Alike.refl _).bind fun selected => ?_
  cases selected with
  | true => exact (Action.Alike.refl _).completing _ _
  | false => exact h

/-- The forms go on alike from what the body comes to. -/
theorem Expr.recovery_alike (host : Host) (e : Expr) (filters : List Expr) (alternative : Expr)
    (t t' t'' : Token) :
    ((Stmt.try_ (.expr e) [.mk none filters (.expr alternative) t] t').exec host).Alike
      ((Stmt.expr (.recover e filters alternative t'')).exec host) := by
  change Action.Alike (observe (completing e.token (e.eval host)) >>= _)
    (completing t'' (observe (e.eval host) >>= _))
  rw [observe_completing_bind, completing_observe_bind]
  refine (Action.Alike.refl _).bind fun outcome => ?_
  cases outcome with
  | ok value =>
    cases value with
    | error code => exact Arm.handle_alike filters alternative t t'' (alike_raise code _ _)
    | _ => exact .refl _
  | error f =>
    cases f with
    | raised code location => exact Arm.handle_alike filters alternative t t'' (.refl _)
    | _ => exact .refl _

/-- A `try` statement whose body and only handler are expressions, the handler binding nothing, ends
as the `try` expression of the same parts does, and leaves the same machine: both complete with one
value, or both fault, with faults that differ in their places at most. -/
theorem Stmt.try_forms_agree (host : Host) (e : Expr) (filters : List Expr) (alternative : Expr)
    (t t' t'' : Token) (m : Machine) :
    let ended := ((try_ (expr e) [.mk none filters (expr alternative) t] t').exec host).run m
    let ended' := ((expr (.recover e filters alternative t'')).exec host).run m
    ((∃ value, ended.1 = .ok (.completed value) ∧ ended'.1 = .ok (.completed value)) ∨
      ∃ f f', ended.1 = .error f ∧ ended'.1 = .error f' ∧ f.unplaced = f'.unplaced) ∧
    ended.2.environment = ended'.2.environment ∧ ended.2.store = ended'.2.store := by
  intro ended ended'
  obtain ⟨houtcome, hmachine⟩ := e.recovery_alike host filters alternative t t' t'' m
  refine ⟨?_, congrArg Machine.environment hmachine, congrArg Machine.store hmachine⟩
  rcases cases_of_unplaced houtcome with ⟨flow, hflow, hflow'⟩ | hfault
  · obtain ⟨value, rfl⟩ := completed_of_completing hflow'
    exact .inl ⟨value, hflow, hflow'⟩
  · exact .inr hfault

end MooScript
