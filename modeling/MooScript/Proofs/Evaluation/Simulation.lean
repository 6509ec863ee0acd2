import MooScript.Proofs.Evaluation.Trace

/-! One tree evaluated twice: with a trace of what happens in it, and plainly, perhaps for another
host. `Simulation` lists what has to be shown of the ways in which actions are put together and of
what touches the machine; from that, evaluation and execution relate to what is told of them. -/
namespace MooScript

/-! ### Names -/

mutual

/-- The names an expression mentions; those that only say what is called or assigned to are left
out unless `every` one is asked for. -/
def Expr.names (every : Bool) : Expr → List String
  | .binary .assign left right _ =>
    (if every then left.names every else []) ++ right.names every
  | .binary _ left right _ => left.names every ++ right.names every
  | .unary _ operand _ => operand.names every
  | .grouping inner _ => inner.names every
  | .literal _ _ => []
  | .identifier name _ => [name]
  | .list elements _ => Expr.namesAll every elements
  | .range first last _ => first.names every ++ last.names every
  | .property object _ _ => object.names every
  | .call callee args _ =>
    (if every || callee.name?.isNone then callee.names every else []) ++ Expr.namesAll every args
  | .verbCall object _ args _ => object.names every ++ Expr.namesAll every args
  | .recover body filters alternative _ =>
    body.names every ++ Expr.namesAll every filters ++ alternative.names every

def Expr.namesAll (every : Bool) : List Expr → List String
  | [] => []
  | e :: es => e.names every ++ Expr.namesAll every es

end

mutual

/-- The names that the expressions of a statement mention. -/
def Stmt.names (every : Bool) : Stmt → List String
  | .expr e => e.names every
  | .block body => Stmt.namesAll every body
  | .return_ e _ => e.names every
  | .if_ conditions consequences otherwise _ =>
    Expr.namesAll every conditions ++ Stmt.namesAll every consequences ++
      Stmt.namesElse every otherwise
  | .for_ _ iterable body _ => iterable.names every ++ body.names every
  | .try_ body arms _ => body.names every ++ Arm.namesAll every arms

def Stmt.namesAll (every : Bool) : List Stmt → List String
  | [] => []
  | s :: ss => s.names every ++ Stmt.namesAll every ss

def Stmt.namesElse (every : Bool) : Option Stmt → List String
  | none => []
  | some s => s.names every

def Arm.namesAll (every : Bool) : List Arm → List String
  | [] => []
  | .mk _ filters body _ :: arms =>
    Expr.namesAll every filters ++ body.names every ++ Arm.namesAll every arms

end

/-! ### Simulations -/

open MooScript.Action (demand errorCode?)
open Traced (silent observe evaluation execution)

/-- A relation that holds of actions put together when it holds of their parts. Where an outcome is
observed, fatal faults may be taken to be thrown again. -/
structure Combines (R : ⦃α : Type⦄ → Traced α → Action α → Prop) : Prop where
  pure : ∀ {α : Type} (a : α), R (pure a) (pure a)
  throw : ∀ {α : Type} (f : Fault),
    R (Traced.silent (MonadExcept.throw f : Action α)) (MonadExcept.throw f)
  bind : ∀ {α β : Type} {act : Traced α} {act' : Action α} {k : α → Traced β} {k' : α → Action β},
    R act act' → (∀ a, R (k a) (k' a)) → R (act >>= k) (act' >>= k')
  observe : ∀ {α β : Type} {act : Traced α} {act' : Action α} {k : Except Fault α → Traced β}
    {k' : Except Fault α → Action β}, R act act' → (∀ outcome, R (k outcome) (k' outcome)) →
    (∀ f : Fault, f.isFatal = true → k (.error f) = Traced.silent (MonadExcept.throw f)) →
    R (observe act >>= k) (Action.observe act' >>= k')

/-- What makes `R` hold of a tree's evaluations for two hosts, when all names that are looked up in
it are in `N`. What a single expression does is related by `S`, and by `R` once its beginning and
its end are told, so that ranges can be taken with their results. -/
structure Simulation (host host' : Host) (N : String → Prop)
    (R : ⦃α : Type⦄ → Traced α → Action α → Prop) (S : Expr → Traced Value → Action Value → Prop) :
    Prop extends Combines R where
  define : ∀ name value, R (Traced.silent (Action.define name value)) (Action.define name value)
  lookup : ∀ name, N name → R (Traced.silent (Action.lookup name)) (Action.lookup name)
  property : ∀ receiver name,
    R (Traced.silent (Action.property receiver name)) (Action.property receiver name)
  call : ∀ name args token,
    R (Traced.silent (Action.call host name args token)) (Action.call host' name args token)
  range : ∀ first last token, R (evaluation first (first.steps host)) (first.eval host') →
    R (evaluation last (last.steps host)) (last.eval host') →
    S (.range first last token) ((Expr.range first last token).steps host)
      ((Expr.range first last token).eval host')
  step : ∀ {e act act'}, R act act' → S e act act'
  evaluation : ∀ e, S e (e.steps host) (e.eval host') →
    R (evaluation e (e.steps host)) (e.eval host')
  execution : ∀ s : Stmt, R (s.steps host) (s.exec host') →
    R (execution s (s.steps host)) (s.exec host')

variable {host host' : Host} {N : String → Prop} {R : ⦃α : Type⦄ → Traced α → Action α → Prop}
  {S : Expr → Traced Value → Action Value → Prop} {every : Bool}

namespace Combines

variable (c : Combines R)
include c

theorem raise {α : Type} (code : ErrorCode) (token : Token) :
    R (silent (Action.raise code token : Action α)) (Action.raise code token) :=
  c.throw _

theorem demand (token : Token) (value : Value) :
    R (silent (Action.demand token value)) (Action.demand token value) := by
  cases value with
  | error code => exact c.raise code token
  | _ => exact c.pure _

theorem liftExcept {α : Type} (outcome : Except Fault α) :
    R (silent (liftExcept outcome)) (liftExcept outcome) := by
  cases outcome with
  | ok a => exact c.pure a
  | error f => exact c.throw f

omit c in
theorem ite {α : Type} {p : Prop} [Decidable p] {act₁ act₂ : Traced α} {act₁' act₂' : Action α}
    (h₁ : R act₁ act₁') (h₂ : R act₂ act₂') :
    R (if p then act₁ else act₂) (if p then act₁' else act₂') := by
  split <;> assumption

theorem anyOr {selected : Traced Bool} {selected' : Action Bool} (h : R selected selected')
    (filters : List Expr) : R (Traced.anyOr filters selected) (Action.anyOr filters selected') :=
  ite (c.pure true) h

theorem forEach {step : Value → Traced Flow} {step' : Value → Action Flow}
    (h : ∀ value, R (step value) (step' value)) (last : Value) (values : List Value) :
    R (Traced.forEach step last values) (Action.forEach step' last values) := by
  induction values generalizing last with
  | nil => exact c.pure _
  | cons value values ih =>
    refine c.bind (h value) fun flow => ?_
    cases flow with
    | completed last => exact ih last
    | returned value => exact c.pure _

/-- A range relates when its bounds do, if ranges of values relate. -/
theorem range {first last : Expr} {token : Token}
    (hrange : ∀ lo hi, R (silent (Action.range host lo hi)) (Action.range host' lo hi))
    (hfirst : R (evaluation first (first.steps host)) (first.eval host'))
    (hlast : R (evaluation last (last.steps host)) (last.eval host')) :
    R ((Expr.range first last token).steps host) ((Expr.range first last token).eval host') := by
  rw [Expr.steps, Expr.eval]
  refine c.bind hfirst fun lo => c.bind (c.demand first.token lo) fun lo => ?_
  exact c.bind hlast fun hi => c.bind (c.demand last.token hi) fun hi => hrange lo hi

end Combines

mutual

theorem Expr.simulated (c : Simulation host host' N R S) (e : Expr)
    (h : ∀ x ∈ e.names every, N x) : S e (e.steps host) (e.eval host') := by
  cases e with
  | literal value t => exact c.step (c.pure value)
  | identifier name t => exact c.step (c.lookup name (h name List.mem_cons_self))
  | grouping inner t => exact c.step (c.evaluation inner (inner.simulated c h))
  | list elements t =>
    exact c.step (c.bind (Expr.simulatedAll c elements h) fun values => c.pure _)
  | range first last t =>
    obtain ⟨hfirst, hlast⟩ := List.forall_mem_append.mp h
    exact c.range first last t (c.evaluation first (first.simulated c hfirst))
      (c.evaluation last (last.simulated c hlast))
  | unary op operand t =>
    have hoperand := c.evaluation operand (operand.simulated c h)
    cases op with
    | not => exact c.step (c.bind hoperand fun value => c.pure _)
    | neg =>
      exact c.step (c.bind hoperand fun value => c.bind (c.demand _ _) fun value => c.pure _)
  | binary op left right t =>
    refine c.step ?_
    by_cases hop : op = .assign
    · subst hop
      have hright := c.evaluation right (right.simulated c (List.forall_mem_append.mp h).2)
      rw [Expr.steps, Expr.eval]
      cases left.name? with
      | none => exact c.raise _ _
      | some name =>
        exact c.bind hright fun value => c.bind (c.define name value) fun _ => c.pure _
    · have hnames : ∀ x ∈ left.names every ++ right.names every, N x := by
        rwa [Expr.names] at h
        exact hop
      obtain ⟨hleft, hright⟩ := List.forall_mem_append.mp hnames
      have hl := c.evaluation left (left.simulated c hleft)
      have hr := c.evaluation right (right.simulated c hright)
      cases op with
      | assign => exact absurd rfl hop
      | and => exact c.bind hl fun a => Combines.ite (c.bind hr fun b => c.pure _) (c.pure _)
      | or => exact c.bind hl fun a => Combines.ite (c.pure _) (c.bind hr fun b => c.pure _)
      | xor | eq | ne => exact c.bind hl fun a => c.bind hr fun b => c.pure _
      | lt | le | gt | ge | add | sub | mul | div | rem =>
        refine c.bind hl fun a => c.bind (c.demand _ _) fun a => ?_
        exact c.bind hr fun b => c.bind (c.demand _ _) fun b => c.pure _
  | property object name t =>
    refine c.step (c.bind (c.evaluation object (object.simulated c h)) fun receiver => ?_)
    exact c.bind (c.demand _ _) fun receiver => c.property receiver name
  | call callee args t =>
    obtain ⟨hcallee, hargs⟩ := List.forall_mem_append.mp h
    have hcall : ∀ name, R (do
          let values ← Expr.stepsAll host args
          silent (Action.call host name values t))
        (do
          let values ← Expr.evalAll host' args
          Action.call host' name values t) := fun name =>
      c.bind (Expr.simulatedAll c args hargs) fun values => c.call name values t
    refine c.step ?_
    rw [Expr.steps, Expr.eval]
    cases hname : callee.name? with
    | some name => exact c.bind (c.pure name) hcall
    | none =>
      rw [hname, Option.isNone_none, Bool.or_true, if_pos rfl] at hcallee
      refine c.bind (c.evaluation callee (callee.simulated c hcallee)) fun value => ?_
      refine c.bind (c.demand _ _) fun value => ?_
      cases value with
      | string name => exact c.bind (c.pure name) hcall
      | _ => exact c.bind (c.raise _ _) hcall
  | verbCall object verb args t =>
    obtain ⟨hobject, hargs⟩ := List.forall_mem_append.mp h
    refine c.step (c.bind (c.evaluation object (object.simulated c hobject)) fun _ => ?_)
    exact c.bind (Expr.simulatedAll c args hargs) fun _ => c.throw _
  | recover body filters alternative t =>
    obtain ⟨hheads, halternative⟩ := List.forall_mem_append.mp h
    obtain ⟨hbody, hfilters⟩ := List.forall_mem_append.mp hheads
    refine c.step (c.observe (c.evaluation body (body.simulated c hbody)) (fun outcome => ?_)
      (fun f hf => ?_))
    · cases errorCode? outcome with
      | none => exact c.liftExcept _
      | some code =>
        refine c.bind (c.anyOr (Expr.simulatedAny c code filters hfilters) filters) fun _ => ?_
        exact Combines.ite (c.evaluation alternative (alternative.simulated c halternative))
          (c.liftExcept _)
    · cases f with
      | raised code location => cases hf
      | unknownFunction name location => rfl
      | unimplementedVerb verb location => rfl

theorem Expr.simulatedAll (c : Simulation host host' N R S) (es : List Expr)
    (h : ∀ x ∈ Expr.namesAll every es, N x) :
    R (Expr.stepsAll host es) (Expr.evalAll host' es) := by
  cases es with
  | nil => exact c.pure []
  | cons e es =>
    obtain ⟨he, hes⟩ := List.forall_mem_append.mp h
    refine c.bind (c.evaluation e (e.simulated c he)) fun value => ?_
    exact c.bind (Expr.simulatedAll c es hes) fun values => c.pure _

theorem Expr.simulatedAny (c : Simulation host host' N R S) (code : ErrorCode) (es : List Expr)
    (h : ∀ x ∈ Expr.namesAll every es, N x) :
    R (Expr.stepsAny host code es) (Expr.matchesAny host' code es) := by
  cases es with
  | nil => exact c.pure false
  | cons e es =>
    obtain ⟨he, hes⟩ := List.forall_mem_append.mp h
    refine c.bind (c.evaluation e (e.simulated c he)) fun value => ?_
    exact Combines.ite (c.pure true) (Expr.simulatedAny c code es hes)

end

mutual

theorem Stmt.simulated (c : Simulation host host' N R S) (s : Stmt)
    (h : ∀ x ∈ s.names every, N x) : R (s.steps host) (s.exec host') := by
  cases s with
  | expr e =>
    refine c.bind (c.evaluation e (e.simulated c h)) fun value => ?_
    exact c.bind (c.demand _ _) fun value => c.pure _
  | block body => exact Stmt.simulatedAll c (.integer 0) body h
  | return_ e t => exact c.bind (c.evaluation e (e.simulated c h)) fun value => c.pure _
  | if_ conditions consequences otherwise t =>
    obtain ⟨hbranches, hotherwise⟩ := List.forall_mem_append.mp h
    obtain ⟨hconditions, hconsequences⟩ := List.forall_mem_append.mp hbranches
    exact Stmt.simulatedBranches c conditions consequences
      (Stmt.simulatedElse c otherwise hotherwise) hconditions hconsequences
  | for_ var iterable body t =>
    obtain ⟨hiterable, hbody⟩ := List.forall_mem_append.mp h
    refine c.bind (c.evaluation iterable (iterable.simulated c hiterable)) fun value => ?_
    refine c.bind (c.demand _ _) fun value => ?_
    cases value.aggregate? with
    | none => exact c.raise _ _
    | some aggregate =>
      refine c.forEach (fun item => ?_) _ _
      exact c.bind (c.define var item) fun _ => c.execution body (body.simulated c hbody)
  | try_ body arms t =>
    obtain ⟨hbody, harms⟩ := List.forall_mem_append.mp h
    refine c.observe (c.execution body (body.simulated c hbody)) (fun outcome => ?_)
      (fun f hf => ?_)
    · cases outcome with
      | ok flow => exact c.pure flow
      | error fault =>
        cases fault with
        | raised code location => exact Arm.simulatedAll c code arms (c.throw _) harms
        | unknownFunction name location => exact c.throw _
        | unimplementedVerb verb location => exact c.throw _
    · cases f with
      | raised code location => cases hf
      | unknownFunction name location => rfl
      | unimplementedVerb verb location => rfl

theorem Stmt.simulatedAll (c : Simulation host host' N R S) (last : Value) (ss : List Stmt)
    (h : ∀ x ∈ Stmt.namesAll every ss, N x) :
    R (Stmt.stepsAll host last ss) (Stmt.execAll host' last ss) := by
  cases ss with
  | nil => exact c.pure _
  | cons s ss =>
    obtain ⟨hs, hss⟩ := List.forall_mem_append.mp h
    refine c.bind (c.execution s (s.simulated c hs)) fun flow => ?_
    cases flow with
    | completed last => exact Stmt.simulatedAll c last ss hss
    | returned value => exact c.pure _

theorem Stmt.simulatedElse (c : Simulation host host' N R S) (otherwise : Option Stmt)
    (h : ∀ x ∈ Stmt.namesElse every otherwise, N x) :
    R (Stmt.stepsElse host otherwise) (Stmt.execElse host' otherwise) := by
  cases otherwise with
  | none => exact c.pure _
  | some s => exact c.execution s (s.simulated c h)

theorem Stmt.simulatedBranches (c : Simulation host host' N R S) {otherwise : Traced Flow}
    {otherwise' : Action Flow} (conditions : List Expr) (bodies : List Stmt)
    (ho : R otherwise otherwise') (hconditions : ∀ x ∈ Expr.namesAll every conditions, N x)
    (hbodies : ∀ x ∈ Stmt.namesAll every bodies, N x) :
    R (Stmt.stepsBranches host otherwise conditions bodies)
      (Stmt.execBranches host' otherwise' conditions bodies) := by
  cases conditions with
  | nil => cases bodies <;> exact ho
  | cons condition conditions =>
    cases bodies with
    | nil => exact ho
    | cons body bodies =>
      obtain ⟨hcondition, hconditions⟩ := List.forall_mem_append.mp hconditions
      obtain ⟨hbody, hbodies⟩ := List.forall_mem_append.mp hbodies
      refine c.bind (c.evaluation condition (condition.simulated c hcondition)) fun value => ?_
      refine c.bind (c.demand _ _) fun value => ?_
      exact Combines.ite (c.execution body (body.simulated c hbody))
        (Stmt.simulatedBranches c conditions bodies ho hconditions hbodies)

theorem Arm.simulatedAll (c : Simulation host host' N R S) (code : ErrorCode)
    {unhandled : Traced Flow} {unhandled' : Action Flow} (arms : List Arm)
    (hu : R unhandled unhandled') (h : ∀ x ∈ Arm.namesAll every arms, N x) :
    R (Arm.steps host code unhandled arms) (Arm.handle host' code unhandled' arms) := by
  cases arms with
  | nil => exact hu
  | cons arm arms =>
    obtain ⟨binding, filters, body, t⟩ := arm
    obtain ⟨hhead, harms⟩ := List.forall_mem_append.mp h
    obtain ⟨hfilters, hbody⟩ := List.forall_mem_append.mp hhead
    refine c.bind (c.anyOr (Expr.simulatedAny c code filters hfilters) filters) fun _ => ?_
    refine Combines.ite ?_ (Arm.simulatedAll c code arms hu harms)
    have hb := c.execution body (body.simulated c hbody)
    cases binding with
    | none => exact c.bind (c.pure ()) fun _ => hb
    | some name => exact c.bind (c.define name _) fun _ => hb

end

/-! ### One host -/

/-- A relation that holds of actions put together when it holds of their parts, and of whatever
evaluates nothing. -/
structure Compatible (host : Host) (R : ⦃α : Type⦄ → Traced α → Action α → Prop) : Prop where
  silent : ∀ {α : Type} (act : Action α), R (silent act) act
  bind : ∀ {α β : Type} {act : Traced α} {act' : Action α} {k : α → Traced β} {k' : α → Action β},
    R act act' → (∀ a, R (k a) (k' a)) → R (act >>= k) (act' >>= k')
  observe : ∀ {α β : Type} {act : Traced α} {act' : Action α} {k : Except Fault α → Traced β}
    {k' : Except Fault α → Action β}, R act act' → (∀ outcome, R (k outcome) (k' outcome)) →
    (∀ f : Fault, f.isFatal = true → k (.error f) = Traced.silent (throw f)) →
    R (observe act >>= k) (Action.observe act' >>= k')
  evaluation : ∀ e : Expr, R (e.steps host) (e.eval host) →
    R (evaluation e (e.steps host)) (e.eval host)
  execution : ∀ s : Stmt, R (s.steps host) (s.exec host) →
    R (execution s (s.steps host)) (s.exec host)

namespace Compatible

theorem combines (c : Compatible host R) : Combines R where
  pure a := c.silent (pure a)
  throw f := c.silent (throw f)
  bind := c.bind
  observe := c.observe

theorem simulation (c : Compatible host R) :
    Simulation host host (fun _ => True) R (fun _ => @R Value) where
  toCombines := c.combines
  define _ _ := c.silent _
  lookup _ _ := c.silent _
  property _ _ := c.silent _
  call _ _ _ := c.silent _
  range _ _ _ := c.combines.range fun _ _ => c.silent _
  step := id
  evaluation := c.evaluation
  execution := c.execution

end Compatible

theorem Expr.steps_related (c : Compatible host R) (e : Expr) : R (e.steps host) (e.eval host) :=
  e.simulated c.simulation fun x (_ : x ∈ e.names true) => trivial

theorem Stmt.steps_related (c : Compatible host R) (s : Stmt) : R (s.steps host) (s.exec host) :=
  s.simulated c.simulation fun x (_ : x ∈ s.names true) => trivial

/-! ### Traces and what they are traces of -/

/-- What ends in the event came about by an evaluation or execution. -/
def Event.Genuine (host : Host) : Event → Prop
  | evaluated e outcome after => ∃ m, (e.eval host).run m = (outcome, after)
  | executed s outcome after => ∃ m, (s.exec host).run m = (outcome, after)
  | evaluating _ | executing _ => True

namespace Traced

/-- The traced action does what the action does, and all that it tells of came about. -/
def Tells (host : Host) (act : Traced α) (act' : Action α) : Prop :=
  ∀ m, (act m).result = act'.run m ∧ ∀ event ∈ (act m).events, event.Genuine host

theorem compatible_tells (host : Host) : Compatible host fun _ => Tells host where
  silent act m := ⟨rfl, List.forall_mem_nil _⟩
  bind {_ _ act act' k k'} h hk m := by
    obtain ⟨hresult, hevents⟩ := h m
    rw [Action.run_bind, ← hresult]
    rcases bind_cases act k m with ⟨f, m', hact, hbind⟩ | ⟨a, m', hact, hbind⟩
    · rw [hbind, hact]
      exact ⟨rfl, hevents⟩
    · obtain ⟨hresult', hevents'⟩ := hk a m'
      rw [hbind, hact]
      exact ⟨hresult', List.forall_mem_append.mpr ⟨hevents, hevents'⟩⟩
  observe {_ _ act act' k k'} h hk _ m := by
    obtain ⟨hresult, hevents⟩ := h m
    obtain ⟨hresult', hevents'⟩ := hk (act m).result.1 (act m).result.2
    rw [observe_bind]
    refine ⟨?_, List.forall_mem_append.mpr ⟨hevents, hevents'⟩⟩
    rw [hresult', hresult]
    rfl
  evaluation e h m := by
    obtain ⟨hresult, hevents⟩ := h m
    have hend : (Event.evaluated e (e.steps host m).result.1 (e.steps host m).result.2).Genuine
      host := ⟨m, hresult.symm⟩
    exact ⟨hresult, List.forall_mem_cons.mpr ⟨trivial,
      List.forall_mem_append.mpr ⟨hevents, List.forall_mem_singleton.mpr hend⟩⟩⟩
  execution s h m := by
    obtain ⟨hresult, hevents⟩ := h m
    have hend : (Event.executed s (s.steps host m).result.1 (s.steps host m).result.2).Genuine
      host := ⟨m, hresult.symm⟩
    exact ⟨hresult, List.forall_mem_cons.mpr ⟨trivial,
      List.forall_mem_append.mpr ⟨hevents, List.forall_mem_singleton.mpr hend⟩⟩⟩

end Traced

open Traced (compatible_tells)

theorem Expr.result_steps (host : Host) (e : Expr) (m : Machine) :
    (e.steps host m).result = (e.eval host).run m :=
  (e.steps_related (compatible_tells host) m).1

theorem Stmt.result_steps (host : Host) (s : Stmt) (m : Machine) :
    (s.steps host m).result = (s.exec host).run m :=
  (s.steps_related (compatible_tells host) m).1

theorem Expr.genuine_of_mem_events {host : Host} {e : Expr} {m : Machine} {event : Event}
    (h : event ∈ e.events host m) : event.Genuine host :=
  ((compatible_tells host).evaluation e (e.steps_related (compatible_tells host)) m).2 event h

theorem Stmt.genuine_of_mem_events {host : Host} {s : Stmt} {m : Machine} {event : Event}
    (h : event ∈ s.events host m) : event.Genuine host :=
  ((compatible_tells host).execution s (s.steps_related (compatible_tells host)) m).2 event h

/-! ### Conditions without consequences -/

theorem Stmt.stepsBranches_take (host : Host) (otherwise : Traced Flow) (conditions : List Expr)
    (bodies : List Stmt) :
    stepsBranches host otherwise (conditions.take bodies.length) (bodies.take conditions.length) =
      stepsBranches host otherwise conditions bodies := by
  induction conditions generalizing bodies with
  | nil => cases bodies <;> rfl
  | cons condition conditions ih =>
    cases bodies with
    | nil => rfl
    | cons body bodies =>
      simp only [List.length_cons, List.take_succ_cons, stepsBranches, ih]

/-- Conditions that have no consequence, and consequences that have no condition, take no part in
what happens. -/
theorem Stmt.steps_if_take (host : Host) (conditions : List Expr) (bodies : List Stmt)
    (otherwise : Option Stmt) (t : Token) :
    (Stmt.if_ (conditions.take bodies.length) (bodies.take conditions.length) otherwise t).steps
      host = (Stmt.if_ conditions bodies otherwise t).steps host := by
  rw [steps, steps, stepsBranches_take]

theorem Stmt.exec_if_take (host : Host) (conditions : List Expr) (bodies : List Stmt)
    (otherwise : Option Stmt) (t : Token) (m : Machine) :
    ((Stmt.if_ (conditions.take bodies.length) (bodies.take conditions.length) otherwise t).exec
      host).run m = ((Stmt.if_ conditions bodies otherwise t).exec host).run m := by
  rw [← result_steps, ← result_steps, steps_if_take]

end MooScript
