import MooScript.Builtin.Standard
import MooScript.Evaluation
import MooScript.Failure
import MooScript.Syntax.Grammar.Statement

/-! Running programs from their source text. -/
namespace MooScript

/-- A machine with what it runs on, over many runs. -/
structure Interpreter where
  host : Host
  machine : Machine

/-- The tree of a program text. -/
def Stmt.ofSource (source : String) : Except Failure Stmt := do
  let tokens ← (Token.lex source).mapError .lexical
  (Stmt.parse tokens).mapError .syntactic

/-- The tree of an expression text. -/
def Expr.ofSource (source : String) : Except Failure Expr := do
  let tokens ← (Token.lex source).mapError .lexical
  (Expr.parse tokens).mapError .syntactic

namespace Interpreter

/-- An interpreter with the standard functions and no objects. -/
def fresh (maxRangeLength : Nat) : Interpreter :=
  ⟨⟨maxRangeLength, .standard⟩, ⟨.initial, .initial⟩⟩

/-- Runs a statement as the body of a call. -/
def run (i : Interpreter) (body : Stmt) : Except Failure Value × Interpreter :=
  let (outcome, machine) := body.run i.host i.machine
  (outcome.mapError .runtime, { i with machine })

/-- Evaluates an expression in the current scope. -/
def eval (i : Interpreter) (e : Expr) : Except Failure Value × Interpreter :=
  let (outcome, machine) := (e.eval i.host).run i.machine
  (outcome.mapError .runtime, { i with machine })

def runSource (i : Interpreter) (source : String) : Except Failure Value × Interpreter :=
  match Stmt.ofSource source with
  | .ok body => i.run body
  | .error failure => (.error failure, i)

def evalSource (i : Interpreter) (source : String) : Except Failure Value × Interpreter :=
  match Expr.ofSource source with
  | .ok e => i.eval e
  | .error failure => (.error failure, i)

/-- Calls a builtin, if there is one of the name. -/
def call (i : Interpreter) (name : String) (args : List Value) : Option Value × Interpreter :=
  match i.host.builtins.find? name with
  | none => (none, i)
  | some f =>
    let (value, store) := f args i.machine.store
    (some value, { i with machine := { i.machine with store } })

def register (i : Interpreter) (name : String) (f : Builtin) : Interpreter :=
  { i with host := { i.host with builtins := i.host.builtins.register name f } }

end Interpreter
end MooScript
