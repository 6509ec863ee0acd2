import MooScript.Builtin
import MooScript.Encoding.Reader
import MooScript.Encoding.Writer
import MooScript.Value.Operation

/-! The standard functions. They report failure as an error value; arguments of a wrong number or
kind are invalid arguments. -/
namespace MooScript.Builtin

/-- The value of a result, or its error. -/
def orError : Except ErrorCode Value → Value
  | .ok value => value
  | .error code => .error code

/-- A function of one argument seen as an ordinal. -/
def onOrdinal (f : Ordinal → Value) : List Value → Value
  | [value] => (value.ordinal?.map f).getD invalid
  | _ => invalid

/-- A function of one argument seen as a sequence. -/
def onAggregate (f : Aggregate → Value) : List Value → Value
  | [value] => (value.aggregate?.map f).getD invalid
  | _ => invalid

/-- A function of one argument seen as a number. -/
def onNumber (f : Number → Value) : List Value → Value
  | [value] => (value.number?.map f).getD invalid
  | _ => invalid

/-- A function of two arguments to which a type error is an invalid argument. -/
def onPair (f : Value → Value → Value) : List Value → Value
  | [a, b] => match f a b with
    | .error .type => invalid
    | value => value
  | _ => invalid

def typeof : List Value → Value
  | [value] => .integer value.kind.tag.toInt64
  | _ => invalid

def valid : List Value → Store → Value
  | [.object id], s => .boolean (s.isValid id)
  | _, _ => invalid

/-- The byte that an integer from 0 to 255 is. -/
def byte? (value : Value) : Option UInt8 := do
  let n ← value.integer?
  if 0 ≤ n.toInt ∧ n.toInt < 256 then some (UInt8.ofNat n.toInt.toNat) else none

/-- The encoding of a value, as a list of integers. -/
def pickle : List Value → Value
  | [value] => match value.encode with
    | .ok bytes => .list (bytes.map fun b => .integer (Int64.ofNat b.toNat))
    | .error _ => invalid
  | _ => invalid

def unpickle : List Value → Value
  | [.list items] => match items.mapM byte? with
    | some bytes => match Value.decode bytes with
      | .ok value => value
      | .error _ => invalid
    | none => invalid
  | _ => invalid

def maxObject : List Value → Store → Value
  | [], s => .object s.maxObject
  | _, _ => invalid

def create : Builtin
  | [], s => match s.create with
    | .ok (id, s') => (.object id, s')
    | .error code => (.error code, s)
  | _, s => (invalid, s)

def recycle : Builtin
  | [.object id], s => done s (s.recycle id)
  | _, s => (invalid, s)

def addProperty : Builtin
  | [.object id, .string name, value], s => done s (s.addProperty id name value)
  | _, s => (invalid, s)

def deleteProperty : Builtin
  | [.object id, .string name], s => done s (s.deleteProperty id name)
  | _, s => (invalid, s)

def getProperty : List Value → Store → Value
  | [.object id, .string name], s => orError (s.property id name)
  | _, _ => invalid

def properties : List Value → Store → Value
  | [.object id], s => orError ((s.propertyNames id).map fun names => .list (names.map .string))
  | _, _ => invalid

def chr : List Value → Value
  | [.integer n] => (Ordinal.integer n).chr
  | _ => invalid

def first (a : Aggregate) : Value := if a.isEmpty then invalid else a.first

def rest (a : Aggregate) : Value := if a.isEmpty then invalid else a.rest

/-- All arguments as displayed, one after the other. -/
def tostr (args : List Value) : Value := .string (String.join (args.map Value.display))

def math (f : MathFunction) : List Value → Value := onNumber (·.apply f)

/-- The standard functions by name. -/
def standard : List (String × Builtin) :=
  [("typeof", pure typeof),
    ("valid", query valid),
    ("pickle", pure pickle),
    ("unpickle", pure unpickle),
    ("maxobject", query maxObject),
    ("create", create),
    ("recycle", recycle),
    ("add_property", addProperty),
    ("delete_property", deleteProperty),
    ("get_property", query getProperty),
    ("properties", query properties),
    ("length", pure (onAggregate fun a => .integer (Int64.ofNat a.length))),
    ("first", pure (onAggregate first)),
    ("rest", pure (onAggregate rest)),
    ("tostr", pure tostr),
    ("chr", pure chr),
    ("ord", pure (onOrdinal Ordinal.ord)),
    ("succ", pure (onOrdinal Ordinal.succ)),
    ("pred", pure (onOrdinal Ordinal.pred)),
    ("min", pure (onPair Value.min)),
    ("max", pure (onPair Value.max))] ++
  MathFunction.all.map fun f => (f.name, pure (math f))

end Builtin

def Builtins.standard : Builtins := ⟨.ofList Builtin.standard⟩

end MooScript
