import MooScript.Operator
import MooScript.Value.Aggregate
import MooScript.Value.Literal
import MooScript.Value.Number
import MooScript.Value.Ordinal

/-! Operators applied to values; operands that do not fit yield a type error. -/
namespace MooScript.Value

def arithmetic (op : Number → Number → Value) (a b : Value) : Value :=
  match a.number?, b.number? with
  | some x, some y => op x y
  | _, _ => .error .type

/-- A string takes anything on its right, as displayed. -/
def add (a b : Value) : Value :=
  match a, b with
  | string s, b => string (s ++ b.display)
  | list xs, list ys => list (xs ++ ys)
  | a, b => arithmetic Number.add a b

/-- The order of two values: of numbers, of ordinals of one kind, of strings. -/
def compare? (a b : Value) : Option Ordering :=
  match a.number?, b.number?, a.ordinal?, b.ordinal? with
  | some x, some y, _, _ => x.compare? y
  | _, _, some x, some y => x.compare? y
  | _, _, _, _ =>
    match a, b with
    | string s, string t => some (compare s t)
    | _, _ => none

def min (a b : Value) : Value :=
  match a.number?, b.number?, a.ordinal?, b.ordinal? with
  | some x, some y, _, _ => x.min y
  | _, _, some x, some y => x.min y
  | _, _, _, _ =>
    match a, b with
    | string s, string t => string (if t < s then t else s)
    | _, _ => .error .type

def max (a b : Value) : Value :=
  match a.number?, b.number?, a.ordinal?, b.ordinal? with
  | some x, some y, _, _ => x.max y
  | _, _, some x, some y => x.max y
  | _, _, _, _ =>
    match a, b with
    | string s, string t => string (if s < t then t else s)
    | _, _ => .error .type

def ordered (holds : Ordering → Bool) (a b : Value) : Value :=
  match a.compare? b with
  | some o => boolean (holds o)
  | none => .error .type

/-- An operator on evaluated operands; assignment is none of these. -/
def applyBinary (op : BinaryOp) (a b : Value) : Value :=
  match op with
  | .assign => .error .type
  | .or => boolean (a.isTruthy || b.isTruthy)
  | .xor => boolean (a.isTruthy ^^ b.isTruthy)
  | .and => boolean (a.isTruthy && b.isTruthy)
  | .eq => boolean (a == b)
  | .ne => boolean (!(a == b))
  | .lt => ordered Ordering.isLT a b
  | .le => ordered Ordering.isLE a b
  | .gt => ordered Ordering.isGT a b
  | .ge => ordered Ordering.isGE a b
  | .add => add a b
  | .sub => arithmetic Number.sub a b
  | .mul => arithmetic Number.mul a b
  | .div => arithmetic Number.div a b
  | .rem => arithmetic Number.rem a b

def applyUnary (op : UnaryOp) (a : Value) : Value :=
  match op with
  | .not => boolean (!a.isTruthy)
  | .neg => match a.number? with
    | some x => x.neg
    | none => .error .type

end MooScript.Value
