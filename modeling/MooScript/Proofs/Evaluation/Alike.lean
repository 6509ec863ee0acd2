import MooScript.Evaluation
import MooScript.Proofs.Location.Unplaced
import MooScript.Proofs.Syntax.Tokens

/-! Actions that come to the same apart from the places of faults. A construct of parts that do
alike does alike, so that the tokens in a tree only tell where its faults come up. -/
namespace MooScript

variable {α β : Type} {host : Host}

namespace Action

/-- The outcome apart from the place of a fault. -/
def unplaced (outcome : Except Fault α) : Except Fault α := outcome.mapError Fault.unplaced

/-- The actions come to the same and leave the same machine, apart from the place of a fault. -/
def Alike (act act' : Action α) : Prop :=
  ∀ m, unplaced (act.run m).1 = unplaced (act'.run m).1 ∧ (act.run m).2 = (act'.run m).2

theorem Alike.refl (act : Action α) : act.Alike act := fun _ => ⟨rfl, rfl⟩

theorem Alike.symm {act act' : Action α} (h : act.Alike act') : act'.Alike act :=
  fun m => ⟨(h m).1.symm, (h m).2.symm⟩

theorem Alike.trans {act act' act'' : Action α} (h : act.Alike act') (h' : act'.Alike act'') :
    act.Alike act'' :=
  fun m => ⟨(h m).1.trans (h' m).1, (h m).2.trans (h' m).2⟩

theorem alike_throw {f f' : Fault} (h : f.unplaced = f'.unplaced) :
    Alike (throw f : Action α) (throw f') :=
  fun _ => ⟨congrArg Except.error h, rfl⟩

theorem alike_raise (code : ErrorCode) (t t' : Token) :
    Alike (raise code t : Action α) (raise code t') := alike_throw rfl

theorem alike_demand (t t' : Token) (value : Value) : Alike (demand t value) (demand t' value) := by
  cases value with
  | error code => exact alike_raise code t t'
  | _ => exact .refl _

/-- What is alike apart from places is the same value, or the same fault apart from its place. -/
theorem cases_of_unplaced {outcome outcome' : Except Fault α}
    (h : unplaced outcome = unplaced outcome') :
    (∃ a, outcome = .ok a ∧ outcome' = .ok a) ∨
      ∃ f f', outcome = .error f ∧ outcome' = .error f' ∧ f.unplaced = f'.unplaced := by
  cases outcome with
  | ok a =>
    cases outcome' with
    | ok a' =>
      cases h
      exact .inl ⟨a, rfl, rfl⟩
    | error f' => cases h
  | error f =>
    cases outcome' with
    | ok a' => cases h
    | error f' => exact .inr ⟨f, f', rfl, rfl, Except.error.inj h⟩

theorem Alike.bind {act act' : Action α} {k k' : α → Action β} (h : act.Alike act')
    (hk : ∀ a, (k a).Alike (k' a)) : (act >>= k).Alike (act' >>= k') := by
  intro m
  obtain ⟨houtcome, hmachine⟩ := h m
  rw [run_bind, run_bind, ← hmachine]
  rcases cases_of_unplaced houtcome with ⟨a, ha, ha'⟩ | ⟨f, f', hf, hf', hfault⟩
  · rw [ha, ha']
    exact hk a _
  · rw [hf, hf']
    exact alike_throw hfault _

/-- What an action comes to is demanded on the way. -/
theorem Alike.demand_bind {act act' : Action Value} {k k' : Value → Action β} (h : act.Alike act')
    (hk : ∀ value, (k value).Alike (k' value)) {t t' : Token} :
    (act >>= fun value => demand t value >>= k).Alike
      (act' >>= fun value => demand t' value >>= k') :=
  h.bind fun value => (alike_demand t t' value).bind hk

theorem Alike.ite {c : Prop} [Decidable c] {act₁ act₁' act₂ act₂' : Action α}
    (h₁ : act₁.Alike act₁') (h₂ : act₂.Alike act₂') :
    Alike (if c then act₁ else act₂) (if c then act₁' else act₂') := by
  split <;> assumption

theorem Alike.observe_bind {act act' : Action α} {k k' : Except Fault α → Action β}
    (h : act.Alike act')
    (hk : ∀ outcome outcome', unplaced outcome = unplaced outcome' →
      (k outcome).Alike (k' outcome')) :
    (observe act >>= k).Alike (observe act' >>= k') := by
  intro m
  obtain ⟨houtcome, hmachine⟩ := h m
  change unplaced ((k (act.run m).1).run (act.run m).2).1 =
      unplaced ((k' (act'.run m).1).run (act'.run m).2).1 ∧
    ((k (act.run m).1).run (act.run m).2).2 = ((k' (act'.run m).1).run (act'.run m).2).2
  rw [← hmachine]
  exact hk _ _ houtcome _

theorem alike_liftExcept {outcome outcome' : Except Fault α}
    (h : unplaced outcome = unplaced outcome') :
    Alike (liftExcept outcome : Action α) (liftExcept outcome') := by
  rcases cases_of_unplaced h with ⟨a, rfl, rfl⟩ | ⟨f, f', rfl, rfl, hfault⟩
  · exact .refl _
  · exact alike_throw hfault

theorem errorCode?_of_unplaced {outcome outcome' : Except Fault Value}
    (h : unplaced outcome = unplaced outcome') : errorCode? outcome = errorCode? outcome' := by
  rcases cases_of_unplaced h with ⟨value, rfl, rfl⟩ | ⟨f, f', rfl, rfl, hfault⟩
  · rfl
  · cases f <;> cases f' <;> cases hfault <;> rfl

theorem alike_call (host : Host) (name : String) (args : List Value) (t t' : Token) :
    Alike (Action.call host name args t) (Action.call host name args t') := by
  unfold Action.call
  cases host.builtins.find? name with
  | none => exact alike_throw rfl
  | some f => exact .refl _

theorem Alike.forEach {step step' : Value → Action Flow}
    (h : ∀ value, (step value).Alike (step' value)) (last : Value) (values : List Value) :
    (forEach step last values).Alike (forEach step' last values) := by
  induction values generalizing last with
  | nil => exact .refl _
  | cons value values ih =>
    refine (h value).bind fun flow => ?_
    cases flow with
    | completed last => exact ih last
    | returned value => exact .refl _

theorem Alike.anyOr {selected selected' : Action Bool} (h : selected.Alike selected')
    {filters filters' : List Expr} (hempty : filters.isEmpty = filters'.isEmpty) :
    (anyOr filters selected).Alike (anyOr filters' selected') := by
  rw [Action.anyOr, Action.anyOr, hempty]
  exact (Alike.refl _).ite h

end Action

open MooScript.Action

/-! ### Expressions of parts that evaluate alike -/

namespace Expr

def EvalAlike (host : Host) (e e' : Expr) : Prop := Action.Alike (e.eval host) (e'.eval host)

variable {e e' e₁ e₁' e₂ e₂' : Expr} {es es' : List Expr} {t t' : Token}

theorem EvalAlike.evalAll (h : List.Forall₂ (EvalAlike host) es es') :
    Action.Alike (Expr.evalAll host es) (Expr.evalAll host es') := by
  induction h with
  | nil => exact .refl _
  | cons he _ ih => exact Action.Alike.bind he fun _ => ih.bind fun _ => .refl _

theorem EvalAlike.matchesAny (h : List.Forall₂ (EvalAlike host) es es') (code : ErrorCode) :
    Action.Alike (Expr.matchesAny host code es) (Expr.matchesAny host code es') := by
  induction h with
  | nil => exact .refl _
  | cons he _ ih => exact Action.Alike.bind he fun _ => .ite (.refl _) ih

/-- Filters that evaluate alike select alike. -/
theorem EvalAlike.anyOr (h : List.Forall₂ (EvalAlike host) es es') (code : ErrorCode) :
    Action.Alike (Action.anyOr es (Expr.matchesAny host code es))
      (Action.anyOr es' (Expr.matchesAny host code es')) := by
  refine (EvalAlike.matchesAny h code).anyOr ?_
  cases h <;> rfl

theorem EvalAlike.list (h : List.Forall₂ (EvalAlike host) es es') :
    EvalAlike host (.list es t) (.list es' t') :=
  (EvalAlike.evalAll h).bind fun _ => .refl _

theorem EvalAlike.range (h₁ : EvalAlike host e₁ e₁') (h₂ : EvalAlike host e₂ e₂') :
    EvalAlike host (.range e₁ e₂ t) (.range e₁' e₂' t') :=
  Action.Alike.demand_bind h₁ fun _ => Action.Alike.demand_bind h₂ fun _ => .refl _

theorem EvalAlike.unary (op : UnaryOp) (h : EvalAlike host e e') :
    EvalAlike host (.unary op e t) (.unary op e' t') := by
  cases op with
  | not => exact Action.Alike.bind h fun _ => .refl _
  | neg => exact Action.Alike.demand_bind h fun _ => .refl _

/-- What is assigned to is not evaluated, so that its name must be kept. -/
theorem EvalAlike.binary (op : BinaryOp) (hname : op = .assign → e₁.name? = e₁'.name?)
    (h₁ : EvalAlike host e₁ e₁') (h₂ : EvalAlike host e₂ e₂') :
    EvalAlike host (.binary op e₁ e₂ t) (.binary op e₁' e₂' t') := by
  cases op with
  | assign =>
    rw [EvalAlike, eval, eval, hname rfl]
    cases e₁'.name? with
    | none => exact alike_raise _ _ _
    | some name => exact Action.Alike.bind h₂ fun _ => .refl _
  | and =>
    exact Action.Alike.bind h₁ fun _ => (Action.Alike.bind h₂ fun _ => .refl _).ite (.refl _)
  | or =>
    exact Action.Alike.bind h₁ fun _ => .ite (.refl _) (Action.Alike.bind h₂ fun _ => .refl _)
  | xor | eq | ne => exact Action.Alike.bind h₁ fun _ => Action.Alike.bind h₂ fun _ => .refl _
  | lt | le | gt | ge | add | sub | mul | div | rem =>
    exact Action.Alike.demand_bind h₁ fun _ => Action.Alike.demand_bind h₂ fun _ => .refl _

theorem EvalAlike.property (name : String) (h : EvalAlike host e e') :
    EvalAlike host (.property e name t) (.property e' name t') :=
  Action.Alike.demand_bind h fun _ => .refl _

/-- A name is called as such; what is none is evaluated to one. -/
theorem EvalAlike.call (hname : e.name? = e'.name?) (h : EvalAlike host e e')
    (hargs : List.Forall₂ (EvalAlike host) es es') :
    EvalAlike host (.call e es t) (.call e' es' t') := by
  have hcall : ∀ name, Action.Alike (do
        let values ← Expr.evalAll host es
        Action.call host name values t)
      (do
        let values ← Expr.evalAll host es'
        Action.call host name values t') := fun name =>
    (EvalAlike.evalAll hargs).bind fun values => alike_call host name values t t'
  rw [EvalAlike, eval, eval, hname]
  cases e'.name? with
  | some name => exact hcall name
  | none =>
    refine Action.Alike.demand_bind h fun value => ?_
    cases value with
    | string name => exact hcall name
    | _ => exact (alike_raise _ _ _).bind hcall

theorem EvalAlike.verbCall (verb : String) (h : EvalAlike host e e')
    (hargs : List.Forall₂ (EvalAlike host) es es') :
    EvalAlike host (.verbCall e verb es t) (.verbCall e' verb es' t') :=
  Action.Alike.bind h fun _ => (EvalAlike.evalAll hargs).bind fun _ => alike_throw rfl

theorem EvalAlike.recover (h₁ : EvalAlike host e₁ e₁')
    (hfilters : List.Forall₂ (EvalAlike host) es es') (h₂ : EvalAlike host e₂ e₂') :
    EvalAlike host (.recover e₁ es e₂ t) (.recover e₁' es' e₂' t') := by
  refine Action.Alike.observe_bind h₁ fun outcome outcome' houtcome => ?_
  rw [← errorCode?_of_unplaced houtcome]
  cases errorCode? outcome with
  | none => exact alike_liftExcept houtcome
  | some code =>
    refine (EvalAlike.anyOr hfilters code).bind fun _ => ?_
    exact Action.Alike.ite h₂ (alike_liftExcept houtcome)

end Expr

/-! ### Statements of parts that evaluate and execute alike -/

namespace Stmt

def ExecAlike (host : Host) (s s' : Stmt) : Prop := Action.Alike (s.exec host) (s'.exec host)

/-- Handlers of the same binding, with filters and bodies that do alike. -/
inductive HandlerAlike (host : Host) : Arm → Arm → Prop
  | mk {binding : Option String} {filters filters' : List Expr} {body body' : Stmt} {t t' : Token}
      (hfilters : List.Forall₂ (Expr.EvalAlike host) filters filters')
      (hbody : ExecAlike host body body') :
      HandlerAlike host (.mk binding filters body t) (.mk binding filters' body' t')

variable {e e' : Expr} {es es' : List Expr} {s s' : Stmt} {ss ss' : List Stmt}
  {otherwise otherwise' : Option Stmt} {arms arms' : List Arm} {t t' : Token}

theorem ExecAlike.expr (h : Expr.EvalAlike host e e') : ExecAlike host (.expr e) (.expr e') :=
  Action.Alike.demand_bind h fun _ => .refl _

theorem ExecAlike.execAll (h : List.Forall₂ (ExecAlike host) ss ss') (last : Value) :
    Action.Alike (Stmt.execAll host last ss) (Stmt.execAll host last ss') := by
  induction h generalizing last with
  | nil => exact .refl _
  | cons hs _ ih =>
    refine Action.Alike.bind hs fun flow => ?_
    cases flow with
    | completed last => exact ih last
    | returned value => exact .refl _

theorem ExecAlike.block (h : List.Forall₂ (ExecAlike host) ss ss') :
    ExecAlike host (.block ss) (.block ss') := ExecAlike.execAll h (.integer 0)

theorem ExecAlike.return_ (h : Expr.EvalAlike host e e') :
    ExecAlike host (.return_ e t) (.return_ e' t') :=
  Action.Alike.bind h fun _ => .refl _

theorem ExecAlike.execElse (h : Option.Rel (ExecAlike host) otherwise otherwise') :
    Action.Alike (Stmt.execElse host otherwise) (Stmt.execElse host otherwise') := by
  cases h with
  | some h => exact h
  | none => exact .refl _

theorem ExecAlike.if_ (hconditions : List.Forall₂ (Expr.EvalAlike host) es es')
    (hconsequences : List.Forall₂ (ExecAlike host) ss ss')
    (helse : Option.Rel (ExecAlike host) otherwise otherwise') :
    ExecAlike host (.if_ es ss otherwise t) (.if_ es' ss' otherwise' t') := by
  change Action.Alike (Stmt.execBranches host (Stmt.execElse host otherwise) es ss)
    (Stmt.execBranches host (Stmt.execElse host otherwise') es' ss')
  induction hconditions generalizing ss ss' with
  | nil => cases hconsequences <;> exact ExecAlike.execElse helse
  | cons hcondition _ ih =>
    cases hconsequences with
    | nil => exact ExecAlike.execElse helse
    | cons hbody hbodies =>
      exact Action.Alike.demand_bind hcondition fun _ => Action.Alike.ite hbody (ih hbodies)

theorem ExecAlike.for_ (var : String) (he : Expr.EvalAlike host e e') (hs : ExecAlike host s s') :
    ExecAlike host (.for_ var e s t) (.for_ var e' s' t') := by
  refine Action.Alike.demand_bind he fun value => ?_
  cases value.aggregate? with
  | none => exact alike_raise _ _ _
  | some aggregate => exact .forEach (fun _ => (Action.Alike.refl _).bind fun _ => hs) _ _

theorem HandlerAlike.handle (h : List.Forall₂ (HandlerAlike host) arms arms') (code : ErrorCode)
    {unhandled unhandled' : Action Flow} (hu : unhandled.Alike unhandled') :
    Action.Alike (Arm.handle host code unhandled arms) (Arm.handle host code unhandled' arms') := by
  induction h with
  | nil => exact hu
  | cons harm _ ih =>
    obtain ⟨hfilters, hbody⟩ := harm
    rename_i binding _ _ _ _ _ _
    refine (Expr.EvalAlike.anyOr hfilters code).bind fun _ => Action.Alike.ite ?_ ih
    cases binding with
    | none => exact hbody
    | some name => exact (Action.Alike.refl _).bind fun _ => hbody

theorem ExecAlike.try_ (h : ExecAlike host s s')
    (harms : List.Forall₂ (HandlerAlike host) arms arms') :
    ExecAlike host (.try_ s arms t) (.try_ s' arms' t') := by
  refine Action.Alike.observe_bind h fun outcome outcome' houtcome => ?_
  rcases cases_of_unplaced houtcome with ⟨flow, rfl, rfl⟩ | ⟨f, f', rfl, rfl, hfault⟩
  · exact .refl _
  -- Only a raised error comes to the handlers.
  · cases f with
    | raised code location =>
      cases f' <;> cases hfault
      exact HandlerAlike.handle harms code (alike_throw rfl)
    | unknownFunction name location =>
      cases f' <;> cases hfault
      exact alike_throw rfl
    | unimplementedVerb verb location =>
      cases f' <;> cases hfault
      exact alike_throw rfl

/-- In a scope of its own, too. -/
theorem ExecAlike.run (h : ExecAlike host s s') (m : Machine) :
    unplaced (s.run host m).1 = unplaced (s'.run host m).1 ∧
      (s.run host m).2 = (s'.run host m).2 := by
  let opened : Machine := { m with environment := m.environment.push }
  obtain ⟨houtcome, hmachine⟩ := h opened
  change unplaced (((s.exec host).run opened).1.map Flow.value) =
      unplaced (((s'.exec host).run opened).1.map Flow.value) ∧
    { ((s.exec host).run opened).2 with
      environment := ((s.exec host).run opened).2.environment.pop } =
    { ((s'.exec host).run opened).2 with
      environment := ((s'.exec host).run opened).2.environment.pop }
  rw [hmachine]
  refine ⟨?_, rfl⟩
  rcases cases_of_unplaced houtcome with ⟨flow, hflow, hflow'⟩ | ⟨f, f', hf, hf', hfault⟩
  · rw [hflow, hflow']
  · rw [hf, hf']
    exact congrArg Except.error hfault

end Stmt

/-! ### Trees without their tokens -/

mutual

theorem Expr.eval_bare (host : Host) (e : Expr) : Expr.EvalAlike host e e.bare := by
  cases e with
  | literal value t => exact .refl _
  | identifier name t => exact .refl _
  | grouping inner t => exact inner.eval_bare host
  | list elements t => exact .list (Expr.forall₂_bareAll host elements)
  | range first last t => exact .range (first.eval_bare host) (last.eval_bare host)
  | unary op operand t => exact .unary op (operand.eval_bare host)
  | binary op left right t =>
    exact .binary op (fun _ => left.name?_bare.symm) (left.eval_bare host) (right.eval_bare host)
  | property object name t => exact .property name (object.eval_bare host)
  | call callee args t =>
    exact .call callee.name?_bare.symm (callee.eval_bare host) (Expr.forall₂_bareAll host args)
  | verbCall object verb args t =>
    exact .verbCall verb (object.eval_bare host) (Expr.forall₂_bareAll host args)
  | recover body filters alternative t =>
    exact .recover (body.eval_bare host) (Expr.forall₂_bareAll host filters)
      (alternative.eval_bare host)

theorem Expr.forall₂_bareAll (host : Host) (es : List Expr) :
    List.Forall₂ (Expr.EvalAlike host) es (Expr.bareAll es) := by
  cases es with
  | nil => exact .nil
  | cons e es => exact .cons (e.eval_bare host) (Expr.forall₂_bareAll host es)

end

mutual

theorem Stmt.exec_bare (host : Host) (s : Stmt) : Stmt.ExecAlike host s s.bare := by
  cases s with
  | expr e => exact .expr (e.eval_bare host)
  | block body => exact .block (Stmt.forall₂_bareAll host body)
  | return_ e t => exact .return_ (e.eval_bare host)
  | if_ conditions consequences otherwise t =>
    exact .if_ (Expr.forall₂_bareAll host conditions) (Stmt.forall₂_bareAll host consequences)
      (Stmt.rel_bareElse host otherwise)
  | for_ var iterable body t => exact .for_ var (iterable.eval_bare host) (body.exec_bare host)
  | try_ body arms t => exact .try_ (body.exec_bare host) (Arm.forall₂_bareAll host arms)

theorem Stmt.forall₂_bareAll (host : Host) (ss : List Stmt) :
    List.Forall₂ (Stmt.ExecAlike host) ss (Stmt.bareAll ss) := by
  cases ss with
  | nil => exact .nil
  | cons s ss => exact .cons (s.exec_bare host) (Stmt.forall₂_bareAll host ss)

theorem Stmt.rel_bareElse (host : Host) (otherwise : Option Stmt) :
    Option.Rel (Stmt.ExecAlike host) otherwise (Stmt.bareElse otherwise) := by
  cases otherwise with
  | none => exact .none
  | some s => exact .some (s.exec_bare host)

theorem Arm.forall₂_bareAll (host : Host) (arms : List Arm) :
    List.Forall₂ (Stmt.HandlerAlike host) arms (Arm.bareAll arms) := by
  cases arms with
  | nil => exact .nil
  | cons arm arms =>
    obtain ⟨binding, filters, body, t⟩ := arm
    exact .cons (.mk (Expr.forall₂_bareAll host filters) (body.exec_bare host))
      (Arm.forall₂_bareAll host arms)

end

/-- Trees that differ in their tokens only run alike. -/
theorem Stmt.run_of_bare {s s' : Stmt} (h : s.bare = s'.bare) (host : Host) (m : Machine) :
    unplaced (s.run host m).1 = unplaced (s'.run host m).1 ∧
      (s.run host m).2 = (s'.run host m).2 := by
  have hexec : Stmt.ExecAlike host s s' :=
    Action.Alike.trans (s.exec_bare host) (h ▸ Action.Alike.symm (s'.exec_bare host))
  exact hexec.run m

end MooScript
