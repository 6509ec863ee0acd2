import MooScript.ErrorCode
import MooScript.Binary64

/-! Values, their kinds, truth and equality. -/
namespace MooScript

/-- The type of a value as scripts and encodings see it. -/
inductive ValueKind
  | none | returned | boolean | character | integer | float | string | object | list | error
  deriving DecidableEq

namespace ValueKind

def all : List ValueKind :=
  [none, returned, boolean, character, integer, float, string, object, list, error]

def tag : ValueKind → Int32
  | none => 0
  | returned => 1
  | boolean => 2
  | character => 3
  | integer => 4
  | float => 5
  | string => 6
  | object => 7
  | list => 8
  | error => 100

def ofTag? (tag : Int32) : Option ValueKind := all.find? (·.tag == tag)

def name : ValueKind → String
  | none => "None"
  | returned => "Return"
  | boolean => "Boolean"
  | character => "Character"
  | integer => "Integer"
  | float => "Float"
  | string => "String"
  | object => "Object"
  | list => "List"
  | error => "Error"

/-- The constant by which scripts know a kind. -/
def constant? : ValueKind → Option String
  | none | returned => .none
  | boolean => some "BOOL"
  | character => some "CHAR"
  | integer => some "INT"
  | float => some "FLOAT"
  | string => some "STRING"
  | object => some "OBJ"
  | list => some "LIST"
  | error => some "ERR"

end ValueKind

abbrev ObjectId := Int32

inductive Value
  | boolean (b : Bool)
  | integer (n : Int64)
  | float (x : Float)
  | character (c : Char)
  | string (s : String)
  | object (id : ObjectId)
  | list (items : List Value)
  | error (code : ErrorCode)
  | returned (value : Value)

namespace Value

def kind : Value → ValueKind
  | boolean _ => .boolean
  | integer _ => .integer
  | float _ => .float
  | character _ => .character
  | string _ => .string
  | object _ => .object
  | list _ => .list
  | error _ => .error
  | returned _ => .returned

/-- Objects and errors never count as true; a NaN does. -/
def isTruthy : Value → Bool
  | boolean b => b
  | integer n => n != 0
  | float x => !Binary64.isZero x
  | character c => c != '\x00'
  | string s => s != ""
  | list items => !items.isEmpty
  | object _ => false
  | error _ => false
  | returned value => value.isTruthy

def isError : Value → Bool
  | error _ => true
  | _ => false

def errorCode? : Value → Option ErrorCode
  | error code => some code
  | _ => none

def integer? : Value → Option Int64
  | integer n => some n
  | _ => none

def object? : Value → Option ObjectId
  | object id => some id
  | _ => none

def string? : Value → Option String
  | string s => some s
  | _ => none

/-- The value under any number of return wrappers. -/
def unwrapped : Value → Value
  | returned value => value.unwrapped
  | value => value

mutual

/-- Equality as scripts see it: kinds never mix, a NaN differs from itself and zeros are equal. -/
def equal : Value → Value → Bool
  | boolean a, boolean b => a == b
  | integer a, integer b => a == b
  | float a, float b => Binary64.compare? a b == some .eq
  | character a, character b => a == b
  | string a, string b => a == b
  | object a, object b => a == b
  | list xs, list ys => equalLists xs ys
  | error a, error b => a == b
  | returned a, returned b => equal a b
  | _, _ => false

def equalLists : List Value → List Value → Bool
  | [], [] => true
  | x :: xs, y :: ys => equal x y && equalLists xs ys
  | _, _ => false

end

instance : BEq Value := ⟨equal⟩

mutual

/-- How deeply lists and return wrappers nest in a value. -/
def depth : Value → Nat
  | list items => depthOfItems items + 1
  | returned value => value.depth + 1
  | _ => 0

def depthOfItems : List Value → Nat
  | [] => 0
  | value :: items => max value.depth (depthOfItems items)

end

end Value
end MooScript
