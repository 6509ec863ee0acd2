/-! The catalog of error codes. -/
namespace MooScript

inductive ErrorCode
  | none | type | div | perm | propNotFound | verbNotFound | varNotFound | invalidIndirection
  | recursiveMove | maxRecursion | range | args | notAccepted | invalidArgument | quota | float
  deriving DecidableEq

namespace ErrorCode

/-- Every code, in catalog order. -/
def all : List ErrorCode :=
  [none, type, div, perm, propNotFound, verbNotFound, varNotFound, invalidIndirection,
    recursiveMove, maxRecursion, range, args, notAccepted, invalidArgument, quota, float]

/-- The constant by which scripts know a code. -/
def name : ErrorCode → String
  | none => "E_NONE"
  | type => "E_TYPE"
  | div => "E_DIV"
  | perm => "E_PERM"
  | propNotFound => "E_PROPNF"
  | verbNotFound => "E_VERBNF"
  | varNotFound => "E_VARNF"
  | invalidIndirection => "E_INVIND"
  | recursiveMove => "E_RECMOVE"
  | maxRecursion => "E_MAXREC"
  | range => "E_RANGE"
  | args => "E_ARGS"
  | notAccepted => "E_NACC"
  | invalidArgument => "E_INVARG"
  | quota => "E_QUOTA"
  | float => "E_FLOAT"

def message : ErrorCode → String
  | none => "No error"
  | type => "Type mismatch"
  | div => "Division by zero"
  | perm => "Permission denied"
  | propNotFound => "Property not found"
  | verbNotFound => "Verb not found"
  | varNotFound => "Variable not found"
  | invalidIndirection => "Invalid indirection"
  | recursiveMove => "Recursive move"
  | maxRecursion => "Too many verb calls"
  | range => "Range error"
  | args => "Incorrect number of arguments"
  | notAccepted => "Move refused by destination"
  | invalidArgument => "Invalid argument"
  | quota => "Resource limit exceeded"
  | float => "Floating-point arithmetic error"

def ofName? (s : String) : Option ErrorCode := all.find? (·.name == s)

end ErrorCode
end MooScript
