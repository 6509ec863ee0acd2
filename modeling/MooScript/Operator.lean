/-! The operators of expressions. -/
namespace MooScript

inductive BinaryOp
  | assign | or | xor | and | eq | ne | lt | le | gt | ge | add | sub | mul | div | rem
  deriving DecidableEq

namespace BinaryOp

def all : List BinaryOp := [assign, or, xor, and, eq, ne, lt, le, gt, ge, add, sub, mul, div, rem]

def name : BinaryOp → String
  | assign => "Assign"
  | or => "Or"
  | xor => "Xor"
  | and => "And"
  | eq => "Eq"
  | ne => "Ne"
  | lt => "Lt"
  | le => "Le"
  | gt => "Gt"
  | ge => "Ge"
  | add => "Add"
  | sub => "Sub"
  | mul => "Mul"
  | div => "Div"
  | rem => "Rem"

end BinaryOp

inductive UnaryOp
  | neg | not
  deriving DecidableEq

def UnaryOp.name : UnaryOp → String
  | neg => "Neg"
  | not => "Not"

end MooScript
