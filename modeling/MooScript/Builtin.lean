import MooScript.Store

/-! Named functions that scripts can call. -/
namespace MooScript

/-- A function of its arguments and the store. -/
abbrev Builtin := List Value → Store → Value × Store

/-- Functions by name. -/
structure Builtins where
  table : Table String Builtin

namespace Builtins

/-- Adds a function, in place of one of the same name. -/
def register (b : Builtins) (name : String) (f : Builtin) : Builtins := ⟨b.table.insert name f⟩

def contains (b : Builtins) (name : String) : Bool := b.table.contains name

def find? (b : Builtins) (name : String) : Option Builtin := b.table.get? name

end Builtins

namespace Builtin

def invalid : Value := .error .invalidArgument

/-- A function that leaves the store alone. -/
def pure (f : List Value → Value) : Builtin := fun args s => (f args, s)

/-- A function that reads the store. -/
def query (f : List Value → Store → Value) : Builtin := fun args s => (f args s, s)

/-- What an action on the store yields: 0, or its error with the store as it was. -/
def done (s : Store) : Except ErrorCode Store → Value × Store
  | .ok s' => (.integer 0, s')
  | .error code => (.error code, s)

end Builtin
end MooScript
