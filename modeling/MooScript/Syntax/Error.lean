import MooScript.Token

/-! What makes a token list no program. -/
namespace MooScript

inductive Expectation
  | kind (k : Kind)
  | statement
  | expression
  | endOfExpression
  | iterable
  | objectNumber
  deriving DecidableEq

def Expectation.text : Expectation → String
  | kind .identifier => "identifier"
  | kind .integer => "integer"
  | kind .float => "float"
  | kind .string => "string"
  | kind k => "'" ++ k.text ++ "'"
  | statement => "statement"
  | expression => "expression"
  | endOfExpression => "end of expression"
  | iterable => "range literal or parenthesized expression"
  | objectNumber => "object number"

inductive SyntaxError
  | unexpectedToken (expected : Expectation) (found : Token)
  | unexpectedEnd (expected : Expectation) (finish : Token)
  | invalidAssignment (target : Token)
  deriving DecidableEq

def SyntaxError.location : SyntaxError → Location
  | unexpectedToken _ t | unexpectedEnd _ t | invalidAssignment t => t.location

end MooScript
