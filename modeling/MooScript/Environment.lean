import MooScript.Table
import MooScript.Value

/-! Variables in nested scopes. -/
namespace MooScript

abbrev Scope := Table String Value

/-- Open scopes from the innermost outward, then the global one. -/
structure Environment where
  inner : List Scope
  globals : Scope

namespace Environment

/-- The constants of the kinds and of the error codes. -/
def constants : List (String × Value) :=
  (ValueKind.all.filterMap fun kind =>
    kind.constant?.map fun name => (name, .integer kind.tag.toInt64)) ++
  ErrorCode.all.map fun code => (code.name, .error code)

def initial : Environment := ⟨[], .ofList constants⟩

def push (e : Environment) : Environment := { e with inner := .empty :: e.inner }

/-- Closes the innermost scope; the global one stays. -/
def pop (e : Environment) : Environment := { e with inner := e.inner.tail }

/-- Binds a name in the innermost scope. -/
def define (e : Environment) (name : String) (value : Value) : Environment :=
  match e.inner with
  | [] => { e with globals := e.globals.insert name value }
  | scope :: outer => { e with inner := scope.insert name value :: outer }

/-- The innermost binding of a name. -/
def get? (e : Environment) (name : String) : Option Value :=
  (e.inner ++ [e.globals]).findSome? (·.get? name)

def depth (e : Environment) : Nat := e.inner.length + 1

end Environment
end MooScript
