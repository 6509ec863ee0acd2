import MooScript.ErrorCode
import MooScript.Source

/-! What ends an evaluation early. -/
namespace MooScript

inductive Fault
  /-- An error value came where none is accepted. -/
  | raised (code : ErrorCode) (location : Location)
  | unknownFunction (name : String) (location : Location)
  /-- Objects have no verbs. -/
  | unimplementedVerb (verb : String) (location : Location)
  deriving DecidableEq

def Fault.location : Fault → Location
  | raised _ l | unknownFunction _ l | unimplementedVerb _ l => l

end MooScript
