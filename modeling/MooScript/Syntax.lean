import MooScript.Operator
import MooScript.Token
import MooScript.Value

/-! Syntax trees; each node keeps the token it was made from. -/
namespace MooScript

inductive Expr
  | binary (op : BinaryOp) (left right : Expr) (token : Token)
  | unary (op : UnaryOp) (operand : Expr) (token : Token)
  | grouping (inner : Expr) (token : Token)
  | literal (value : Value) (token : Token)
  | identifier (name : String) (token : Token)
  | list (elements : List Expr) (token : Token)
  | range (first last : Expr) (token : Token)
  | property (object : Expr) (name : String) (token : Token)
  | call (callee : Expr) (args : List Expr) (token : Token)
  | verbCall (object : Expr) (verb : String) (args : List Expr) (token : Token)
  /-- Without filters it catches any error. -/
  | recover (body : Expr) (filters : List Expr) (alternative : Expr) (token : Token)

def Expr.token : Expr → Token
  | binary _ _ _ token | unary _ _ token | grouping _ token | literal _ token
  | identifier _ token | list _ token | range _ _ token | property _ _ token
  | call _ _ token | verbCall _ _ _ token | recover _ _ _ token => token

/-- The name that an expression is. -/
def Expr.name? : Expr → Option String
  | identifier name _ => some name
  | _ => none

mutual

inductive Stmt
  | expr (e : Expr)
  | block (body : List Stmt)
  | return_ (e : Expr) (token : Token)
  /-- Each condition guards the consequence at its place. -/
  | if_ (conditions : List Expr) (consequences : List Stmt) (otherwise : Option Stmt)
    (token : Token)
  | for_ (var : String) (iterable : Expr) (body : Stmt) (token : Token)
  | try_ (body : Stmt) (arms : List Arm) (token : Token)

/-- A handler of errors; without filters it takes any. -/
inductive Arm
  | mk (binding : Option String) (filters : List Expr) (body : Stmt) (token : Token)

end

end MooScript
