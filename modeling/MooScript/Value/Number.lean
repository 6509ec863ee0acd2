import MooScript.Value

/-! Integers and floats as numbers. -/
namespace MooScript

/-- Two integers compute as integers; any other pair computes as floats. -/
inductive Number
  | integer (n : Int64)
  | float (x : Float)

def Value.number? : Value → Option Number
  | integer n => some (.integer n)
  | float x => some (.float x)
  | _ => none

/-- A float that a computation may yield; any other is an error. -/
def Value.ofFloat (x : Float) : Value :=
  if Binary64.isFinite x then float x else error .float

namespace Number

def toFloat : Number → Float
  | integer n => Binary64.ofInt64 n
  | float x => x

def isZero : Number → Bool
  | integer n => n == 0
  | float x => Binary64.isZero x

/-- Applies the one function to two integers and the other to floats. -/
def combine (onInt : Int64 → Int64 → Int64) (onFloat : Float → Float → Float) :
    Number → Number → Value
  | integer a, integer b => .integer (onInt a b)
  | a, b => .ofFloat (onFloat a.toFloat b.toFloat)

/-- Integers wrap around at 64 bits. -/
def add : Number → Number → Value := combine (· + ·) (· + ·)

def sub : Number → Number → Value := combine (· - ·) (· - ·)

def mul : Number → Number → Value := combine (· * ·) (· * ·)

/-- Integers divide toward zero. -/
def div (a b : Number) : Value :=
  if b.isZero then .error .div else combine (· / ·) (· / ·) a b

/-- A remainder has the sign of `a`. -/
def rem (a b : Number) : Value :=
  if b.isZero then .error .div else combine (· % ·) Binary64.remainder a b

def neg : Number → Value
  | integer n => .integer (-n)
  | float x => .float (Binary64.negate x)

def compare? : Number → Number → Option Ordering
  | integer a, integer b => some (compare a.toInt b.toInt)
  | a, b => Binary64.compare? a.toFloat b.toFloat

def min : Number → Number → Value := combine (fun a b => if a ≤ b then a else b) Binary64.least

def max : Number → Number → Value := combine (fun a b => if b ≤ a then a else b) Binary64.greatest

end Number

/-- The functions of one number. -/
inductive MathFunction
  | floor | ceil | sqrt | sin | cos | tan | asin | acos | atan | sinh | cosh | tanh
  | exp | log | log10
  deriving DecidableEq

namespace MathFunction

def all : List MathFunction :=
  [floor, ceil, sqrt, sin, cos, tan, asin, acos, atan, sinh, cosh, tanh, exp, log, log10]

def name : MathFunction → String
  | floor => "floor"
  | ceil => "ceil"
  | sqrt => "sqrt"
  | sin => "sin"
  | cos => "cos"
  | tan => "tan"
  | asin => "asin"
  | acos => "acos"
  | atan => "atan"
  | sinh => "sinh"
  | cosh => "cosh"
  | tanh => "tanh"
  | exp => "exp"
  | log => "log"
  | log10 => "log10"

def ofName? (s : String) : Option MathFunction := all.find? (·.name == s)

/-- The logarithms are to base e and to base 10. -/
def eval : MathFunction → Float → Float
  | floor => Float.floor
  | ceil => Float.ceil
  | sqrt => Float.sqrt
  | sin => Float.sin
  | cos => Float.cos
  | tan => Float.tan
  | asin => Float.asin
  | acos => Float.acos
  | atan => Float.atan
  | sinh => Float.sinh
  | cosh => Float.cosh
  | tanh => Float.tanh
  | exp => Float.exp
  | log => Float.log
  | log10 => Float.log10

end MathFunction

def Number.apply (a : Number) (f : MathFunction) : Value := .ofFloat (f.eval a.toFloat)

end MooScript
