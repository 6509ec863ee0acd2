import MooScript.Value

/-! Lists and strings as sequences, indexed from 0. -/
namespace MooScript

inductive Aggregate
  | list (items : List Value)
  | string (s : String)

def Value.aggregate? : Value → Option Aggregate
  | list items => some (.list items)
  | string s => some (.string s)
  | _ => none

namespace Aggregate

/-- The elements; those of a string are its characters. -/
def items : Aggregate → List Value
  | list items => items
  | string s => s.toList.map .character

def length : Aggregate → Nat
  | list items => items.length
  | string s => s.length

def isEmpty : Aggregate → Bool
  | list items => items.isEmpty
  | string s => s == ""

def at_ (a : Aggregate) (index : Nat) : Value :=
  let element := match a with
    | list items => items[index]?
    | string s => s.toList[index]?.map .character
  element.getD (.error .range)

/-- The part from index `start` up to, not including, `stop`. -/
def slice (a : Aggregate) (start stop : Nat) : Value :=
  if stop < start ∨ a.length < stop then .error .range
  else match a with
    | list items => .list ((items.drop start).take (stop - start))
    | string s => .string (String.ofList ((s.toList.drop start).take (stop - start)))

def first (a : Aggregate) : Value := a.at_ 0

def rest (a : Aggregate) : Value := if a.isEmpty then .error .range else a.slice 1 a.length

def uncons? (a : Aggregate) : Option (Value × Value) :=
  if a.isEmpty then none else some (a.first, a.rest)

/-- A list and a string do not join. -/
def concat : Aggregate → Aggregate → Value
  | list xs, list ys => .list (xs ++ ys)
  | string s, string t => .string (s ++ t)
  | _, _ => .error .type

end Aggregate
end MooScript
