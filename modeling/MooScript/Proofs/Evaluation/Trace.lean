import MooScript.Evaluation

/-! Traces: the evaluator, telling also which expressions are evaluated in it and which statements
are executed, in their order. -/
namespace MooScript

/-- What happens in an evaluation: something begins, or ends and leaves a machine. -/
inductive Event
  | evaluating (e : Expr)
  | evaluated (e : Expr) (outcome : Except Fault Value) (after : Machine)
  | executing (s : Stmt)
  | executed (s : Stmt) (outcome : Except Fault Flow) (after : Machine)

/-- An event of two lists is one of the first or one of the second. -/
theorem Event.append_eq_append_cons {xs ys before after : List Event} {event : Event}
    (h : xs ++ ys = before ++ event :: after) :
    (∃ mid, xs = before ++ event :: mid ∧ after = mid ++ ys) ∨
      ∃ mid, before = xs ++ mid ∧ ys = mid ++ event :: after := by
  rcases List.append_eq_append_iff.mp h with ⟨mid, hbefore, hys⟩ | ⟨mid, hxs, hafter⟩
  · exact .inr ⟨mid, hbefore, hys⟩
  · cases mid with
    | nil => exact .inr ⟨[], by rw [hxs, List.append_nil, List.append_nil], hafter.symm⟩
    | cons first mid =>
      obtain ⟨rfl, rfl⟩ := List.cons_eq_cons.mp hafter
      exact .inl ⟨mid, hxs, rfl⟩

/-- What comes of an action, and what happens in it. -/
structure Trace (α : Type) where
  result : Except Fault α × Machine
  events : List Event

/-- An action of which is told what happens in it. -/
def Traced (α : Type) := Machine → Trace α

/-- What no handler takes: a fault that is no raised error. -/
def Fault.isFatal : Fault → Bool
  | raised _ _ => false
  | unknownFunction _ _ | unimplementedVerb _ _ => true

namespace Traced

variable {α β : Type}

instance : Monad Traced where
  pure a := fun m => ⟨(.ok a, m), []⟩
  bind act k := fun m =>
    let t := act m
    match t.result with
    | (.error f, m') => ⟨(.error f, m'), t.events⟩
    | (.ok a, m') => ⟨(k a m').result, t.events ++ (k a m').events⟩

/-- An action in which nothing is evaluated. -/
def silent (act : Action α) : Traced α := fun m => ⟨act.run m, []⟩

/-- Turns the outcome of an action into data. -/
def observe (act : Traced α) : Traced (Except Fault α) := fun m =>
  ⟨(.ok (act m).result.1, (act m).result.2), (act m).events⟩

/-- The evaluation of an expression by an action. -/
def evaluation (e : Expr) (act : Traced Value) : Traced Value := fun m =>
  let t := act m
  ⟨t.result, .evaluating e :: (t.events ++ [.evaluated e t.result.1 t.result.2])⟩

/-- The execution of a statement by an action. -/
def execution (s : Stmt) (act : Traced Flow) : Traced Flow := fun m =>
  let t := act m
  ⟨t.result, .executing s :: (t.events ++ [.executed s t.result.1 t.result.2])⟩

def anyOr (filters : List Expr) (selected : Traced Bool) : Traced Bool :=
  if filters.isEmpty then pure true else selected

def forEach (step : Value → Traced Flow) (last : Value) : List Value → Traced Flow
  | [] => pure (.completed last)
  | value :: values => do
    match ← step value with
    | .completed last => forEach step last values
    | .returned value => return .returned value

end Traced

open MooScript.Action (demand errorCode?)
open Traced (silent observe evaluation execution)

mutual

/-- What is done to evaluate an expression. -/
def Expr.steps (host : Host) : Expr → Traced Value
  | .literal value _ => pure value
  | .identifier name _ => silent (Action.lookup name)
  | .grouping inner _ => evaluation inner (inner.steps host)
  | .list elements _ => do
    let values ← Expr.stepsAll host elements
    return .list values
  | .range first last _ => do
    let lo ← evaluation first (first.steps host)
    let lo ← silent (demand first.token lo)
    let hi ← evaluation last (last.steps host)
    let hi ← silent (demand last.token hi)
    silent (Action.range host lo hi)
  | .unary .not operand _ => do
    let value ← evaluation operand (operand.steps host)
    return value.applyUnary .not
  | .unary .neg operand _ => do
    let value ← evaluation operand (operand.steps host)
    let value ← silent (demand operand.token value)
    return value.applyUnary .neg
  | .binary op left right token =>
    match op with
    | .assign => match left.name? with
      | none => silent (Action.raise .type token)
      | some name => do
        let value ← evaluation right (right.steps host)
        silent (Action.define name value)
        return value
    | .and => do
      let a ← evaluation left (left.steps host)
      if a.isTruthy then
        let b ← evaluation right (right.steps host)
        return .boolean b.isTruthy
      else return .boolean false
    | .or => do
      let a ← evaluation left (left.steps host)
      if a.isTruthy then return .boolean true
      else
        let b ← evaluation right (right.steps host)
        return .boolean b.isTruthy
    | .xor | .eq | .ne => do
      let a ← evaluation left (left.steps host)
      let b ← evaluation right (right.steps host)
      return a.applyBinary op b
    | op => do
      let a ← evaluation left (left.steps host)
      let a ← silent (demand left.token a)
      let b ← evaluation right (right.steps host)
      let b ← silent (demand right.token b)
      return a.applyBinary op b
  | .property object name _ => do
    let receiver ← evaluation object (object.steps host)
    let receiver ← silent (demand object.token receiver)
    silent (Action.property receiver name)
  | .call callee args token => do
    let name ← match callee.name? with
      | some name => pure name
      | none => do
        let value ← evaluation callee (callee.steps host)
        match ← silent (demand callee.token value) with
        | .string name => pure name
        | _ => silent (Action.raise .type callee.token)
    let values ← Expr.stepsAll host args
    silent (Action.call host name values token)
  | .verbCall object verb args token => do
    let _ ← evaluation object (object.steps host)
    let _ ← Expr.stepsAll host args
    silent (throw (.unimplementedVerb verb token.location))
  | .recover body filters alternative _ => do
    let outcome ← observe (evaluation body (body.steps host))
    match errorCode? outcome with
    | none => silent (liftExcept outcome)
    | some code =>
      if ← Traced.anyOr filters (Expr.stepsAny host code filters) then
        evaluation alternative (alternative.steps host)
      else silent (liftExcept outcome)

def Expr.stepsAll (host : Host) : List Expr → Traced (List Value)
  | [] => pure []
  | e :: es => do
    let value ← evaluation e (e.steps host)
    let values ← Expr.stepsAll host es
    return value :: values

def Expr.stepsAny (host : Host) (code : ErrorCode) : List Expr → Traced Bool
  | [] => pure false
  | e :: es => do
    let value ← evaluation e (e.steps host)
    if value == .error code then return true else Expr.stepsAny host code es

end

mutual

/-- What is done to execute a statement. -/
def Stmt.steps (host : Host) : Stmt → Traced Flow
  | .expr e => do
    let value ← evaluation e (e.steps host)
    let value ← silent (demand e.token value)
    return .completed value
  | .block body => Stmt.stepsAll host (.integer 0) body
  | .return_ e _ => do
    let value ← evaluation e (e.steps host)
    return .returned value
  | .if_ conditions consequences otherwise _ =>
    Stmt.stepsBranches host (Stmt.stepsElse host otherwise) conditions consequences
  | .for_ var iterable body _ => do
    let value ← evaluation iterable (iterable.steps host)
    let value ← silent (demand iterable.token value)
    match value.aggregate? with
    | none => silent (Action.raise .type iterable.token)
    | some aggregate =>
      Traced.forEach
        (fun item => do
          silent (Action.define var item)
          execution body (body.steps host))
        (.boolean false) aggregate.items
  | .try_ body arms _ => do
    match ← observe (execution body (body.steps host)) with
    | .ok flow => return flow
    | .error (.raised code location) =>
      Arm.steps host code (silent (throw (.raised code location))) arms
    | .error fault => silent (throw fault)

def Stmt.stepsAll (host : Host) (last : Value) : List Stmt → Traced Flow
  | [] => pure (.completed last)
  | s :: ss => do
    match ← execution s (s.steps host) with
    | .completed last => Stmt.stepsAll host last ss
    | .returned value => return .returned value

def Stmt.stepsElse (host : Host) : Option Stmt → Traced Flow
  | none => pure (.completed (.boolean false))
  | some s => execution s (s.steps host)

def Stmt.stepsBranches (host : Host) (otherwise : Traced Flow) :
    List Expr → List Stmt → Traced Flow
  | condition :: conditions, body :: bodies => do
    let value ← evaluation condition (condition.steps host)
    let value ← silent (demand condition.token value)
    if value.isTruthy then execution body (body.steps host)
    else Stmt.stepsBranches host otherwise conditions bodies
  | _, _ => otherwise

def Arm.steps (host : Host) (code : ErrorCode) (unhandled : Traced Flow) :
    List Arm → Traced Flow
  | [] => unhandled
  | .mk binding filters body _ :: arms => do
    if ← Traced.anyOr filters (Expr.stepsAny host code filters) then
      match binding with
      | some name => silent (Action.define name (.error code))
      | none => pure ()
      execution body (body.steps host)
    else Arm.steps host code unhandled arms

end

/-- What happens in the evaluation of an expression, its own beginning and end included. -/
def Expr.events (host : Host) (e : Expr) (m : Machine) : List Event :=
  (evaluation e (e.steps host) m).events

/-- What happens in the execution of a statement, its own beginning and end included. -/
def Stmt.events (host : Host) (s : Stmt) (m : Machine) : List Event :=
  (execution s (s.steps host) m).events

namespace Traced

variable {α β : Type} {act : Traced α} {k : α → Traced β} {m m' : Machine}

theorem bind_of_error {f : Fault} (h : (act m).result = (.error f, m')) :
    (act >>= k) m = ⟨(.error f, m'), (act m).events⟩ := by
  simp only [bind, h]

theorem bind_of_ok {a : α} (h : (act m).result = (.ok a, m')) :
    (act >>= k) m = ⟨(k a m').result, (act m).events ++ (k a m').events⟩ := by
  simp only [bind, h]

theorem observe_bind (act : Traced α) (k : Except Fault α → Traced β) (m : Machine) :
    (observe act >>= k) m = ⟨(k (act m).result.1 (act m).result.2).result,
      (act m).events ++ (k (act m).result.1 (act m).result.2).events⟩ := rfl

theorem bind_cases (act : Traced α) (k : α → Traced β) (m : Machine) :
    (∃ f m', (act m).result = (.error f, m') ∧
      (act >>= k) m = ⟨(.error f, m'), (act m).events⟩) ∨
    ∃ a m', (act m).result = (.ok a, m') ∧
      (act >>= k) m = ⟨(k a m').result, (act m).events ++ (k a m').events⟩ := by
  cases hact : (act m).result with
  | mk outcome m' =>
    cases outcome with
    | error f => exact .inl ⟨f, m', rfl, bind_of_error hact⟩
    | ok a => exact .inr ⟨a, m', rfl, bind_of_ok hact⟩

end Traced

end MooScript
