import MooScript.Builtin
import MooScript.Environment
import MooScript.Fault
import MooScript.Syntax
import MooScript.Value.Operation

/-! Evaluation of expressions and execution of statements.

Error values are data until something demands a value that is none; then they are raised. -/
namespace MooScript

/-- What an evaluation changes. -/
structure Machine where
  environment : Environment
  store : Store

/-- What an evaluation finds given. -/
structure Host where
  maxRangeLength : Nat
  builtins : Builtins

/-- A change of the machine that yields a value or a fault; after a fault the changes remain. -/
abbrev Action (α : Type) := ExceptT Fault (StateM Machine) α

theorem Action.run_bind {α β : Type} (act : Action α) (k : α → Action β) (m : Machine) :
    (act >>= k).run m = (ExceptT.bindCont k (act.run m).1).run (act.run m).2 := rfl

/-- How a statement ends. -/
inductive Flow
  | completed (value : Value)
  | returned (value : Value)

def Flow.value : Flow → Value
  | completed value | returned value => value

namespace Action

def define (name : String) (value : Value) : Action Unit :=
  modify fun m => { m with environment := m.environment.define name value }

def raise {α : Type} (code : ErrorCode) (token : Token) : Action α :=
  throw (.raised code token.location)

/-- Raises an error value where no error is accepted. -/
def demand (token : Token) : Value → Action Value
  | .error code => raise code token
  | value => pure value

/-- Turns the outcome of an action into data. -/
def observe {α : Type} (act : Action α) : Action (Except Fault α) := fun m =>
  let (outcome, m') := act.run m
  (.ok outcome, m')

/-- The error of an outcome, be it data or raised. -/
def errorCode? : Except Fault Value → Option ErrorCode
  | .ok value => value.errorCode?
  | .error (.raised code _) => some code
  | .error _ => none

def lookup (name : String) : Action Value := do
  let m ← get
  return (m.environment.get? name).getD (.error .varNotFound)

/-- A property of an object; nothing else has any. -/
def property (receiver : Value) (name : String) : Action Value := do
  let m ← get
  match receiver with
  | .object id => match m.store.property id name with
    | .ok value => return value
    | .error code => return .error code
  | _ => return .error .type

/-- The values from `first` to `last`; of objects, those that are live. -/
def range (host : Host) (first last : Value) : Action Value := do
  let m ← get
  match Ordinal.range first last host.maxRangeLength with
  | .list items => return .list <| items.filter fun
    | .object id => m.store.isValid id
    | _ => true
  | value => return value

def call (host : Host) (name : String) (args : List Value) (token : Token) : Action Value := do
  match host.builtins.find? name with
  | none => throw (.unknownFunction name token.location)
  | some f =>
    let m ← get
    let (value, store) := f args m.store
    set { m with store }
    return value

/-- What filters select, where there being none selects every error. -/
def anyOr (filters : List Expr) (selected : Action Bool) : Action Bool :=
  if filters.isEmpty then pure true else selected

/-- Takes a step for each value in turn, unless one returns; the value is that of the last. -/
def forEach (step : Value → Action Flow) (last : Value) : List Value → Action Flow
  | [] => pure (.completed last)
  | value :: values => do
    match ← step value with
    | .completed last => forEach step last values
    | .returned value => return .returned value

end Action

open MooScript.Action

mutual

def Expr.eval (host : Host) : Expr → Action Value
  | .literal value _ => pure value
  | .identifier name _ => lookup name
  | .grouping inner _ => inner.eval host
  | .list elements _ => do
    let values ← Expr.evalAll host elements
    return .list values
  | .range first last _ => do
    let lo ← demand first.token (← first.eval host)
    let hi ← demand last.token (← last.eval host)
    Action.range host lo hi
  | .unary .not operand _ => do
    let value ← operand.eval host
    return value.applyUnary .not
  | .unary .neg operand _ => do
    let value ← demand operand.token (← operand.eval host)
    return value.applyUnary .neg
  | .binary op left right token =>
    match op with
    | .assign => match left.name? with
      | none => raise .type token
      | some name => do
        let value ← right.eval host
        define name value
        return value
    | .and => do
      let a ← left.eval host
      if a.isTruthy then
        let b ← right.eval host
        return .boolean b.isTruthy
      else return .boolean false
    | .or => do
      let a ← left.eval host
      if a.isTruthy then return .boolean true
      else
        let b ← right.eval host
        return .boolean b.isTruthy
    | .xor | .eq | .ne => do
      let a ← left.eval host
      let b ← right.eval host
      return a.applyBinary op b
    | op => do
      let a ← demand left.token (← left.eval host)
      let b ← demand right.token (← right.eval host)
      return a.applyBinary op b
  | .property object name _ => do
    let receiver ← demand object.token (← object.eval host)
    Action.property receiver name
  | .call callee args token => do
    let name ← match callee.name? with
      | some name => pure name
      | none => do
        match ← demand callee.token (← callee.eval host) with
        | .string name => pure name
        | _ => raise .type callee.token
    let values ← Expr.evalAll host args
    Action.call host name values token
  | .verbCall object verb args token => do
    let _ ← object.eval host
    let _ ← Expr.evalAll host args
    throw (.unimplementedVerb verb token.location)
  | .recover body filters alternative _ => do
    let outcome ← observe (body.eval host)
    match errorCode? outcome with
    | none => liftExcept outcome
    | some code =>
      if ← anyOr filters (Expr.matchesAny host code filters) then alternative.eval host
      else liftExcept outcome

def Expr.evalAll (host : Host) : List Expr → Action (List Value)
  | [] => pure []
  | e :: es => do
    let value ← e.eval host
    let values ← Expr.evalAll host es
    return value :: values

/-- Whether one of the filters evaluates to the error of that code. -/
def Expr.matchesAny (host : Host) (code : ErrorCode) : List Expr → Action Bool
  | [] => pure false
  | e :: es => do
    let value ← e.eval host
    if value == .error code then return true else Expr.matchesAny host code es

end

mutual

def Stmt.exec (host : Host) : Stmt → Action Flow
  | .expr e => do
    let value ← demand e.token (← e.eval host)
    return .completed value
  | .block body => Stmt.execAll host (.integer 0) body
  | .return_ e _ => do
    let value ← e.eval host
    return .returned value
  | .if_ conditions consequences otherwise _ =>
    Stmt.execBranches host (Stmt.execElse host otherwise) conditions consequences
  | .for_ var iterable body _ => do
    let value ← demand iterable.token (← iterable.eval host)
    match value.aggregate? with
    | none => raise .type iterable.token
    | some aggregate =>
      forEach (fun item => do define var item; body.exec host) (.boolean false) aggregate.items
  | .try_ body arms _ => do
    match ← observe (body.exec host) with
    | .ok flow => return flow
    | .error (.raised code location) =>
      Arm.handle host code (throw (.raised code location)) arms
    | .error fault => throw fault

/-- Executes statements in turn, unless one returns; the value is that of the last. -/
def Stmt.execAll (host : Host) (last : Value) : List Stmt → Action Flow
  | [] => pure (.completed last)
  | s :: ss => do
    match ← s.exec host with
    | .completed last => Stmt.execAll host last ss
    | .returned value => return .returned value

def Stmt.execElse (host : Host) : Option Stmt → Action Flow
  | none => pure (.completed (.boolean false))
  | some s => s.exec host

/-- Executes the first consequence whose condition holds. The two are paired off, and what there
is more of one than of the other counts for nothing. -/
def Stmt.execBranches (host : Host) (otherwise : Action Flow) :
    List Expr → List Stmt → Action Flow
  | condition :: conditions, body :: bodies => do
    let value ← demand condition.token (← condition.eval host)
    if value.isTruthy then body.exec host
    else Stmt.execBranches host otherwise conditions bodies
  | _, _ => otherwise

/-- Executes the first handler that selects the code. -/
def Arm.handle (host : Host) (code : ErrorCode) (unhandled : Action Flow) :
    List Arm → Action Flow
  | [] => unhandled
  | .mk binding filters body _ :: arms => do
    if ← anyOr filters (Expr.matchesAny host code filters) then
      match binding with
      | some name => define name (.error code)
      | none => pure ()
      body.exec host
    else Arm.handle host code unhandled arms

end

/-- Executes a statement in a scope of its own, which is closed also after a fault. -/
def Stmt.run (host : Host) (s : Stmt) (m : Machine) : Except Fault Value × Machine :=
  let (outcome, m') := (s.exec host).run { m with environment := m.environment.push }
  (outcome.map Flow.value, { m' with environment := m'.environment.pop })

end MooScript
