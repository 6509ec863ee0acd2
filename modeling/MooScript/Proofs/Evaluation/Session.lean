import MooScript.Interpreter

/-! Sessions: what a host asks of one interpreter, request after request. -/
namespace MooScript.Interpreter

inductive Request
  | run (body : Stmt)
  | eval (e : Expr)
  | call (name : String) (args : List Value)
  | register (name : String) (f : Builtin)

/-- The outcome of a request, if there is any, and the interpreter afterwards. -/
def respond (i : Interpreter) : Request → Option (Except Failure Value) × Interpreter
  | .run body =>
    let (outcome, i') := i.run body
    (some outcome, i')
  | .eval e =>
    let (outcome, i') := i.eval e
    (some outcome, i')
  | .call name args =>
    let (value?, i') := i.call name args
    (value?.map .ok, i')
  | .register name f => (none, i.register name f)

/-- The interpreter after a session. -/
def after (i : Interpreter) : List Request → Interpreter
  | [] => i
  | request :: requests => (i.respond request).2.after requests

end MooScript.Interpreter
