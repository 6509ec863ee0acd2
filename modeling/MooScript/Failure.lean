import MooScript.Fault
import MooScript.Syntax.Error
import MooScript.Text.Quoted
import MooScript.Token.Lexer

/-! Failures of all stages, from source text to value, as they are reported. -/
namespace MooScript

inductive Failure
  | lexical (e : LexicalError)
  | syntactic (e : SyntaxError)
  | runtime (fault : Fault)
  deriving DecidableEq

namespace Failure

def location : Failure → Location
  | lexical e => e.location
  | syntactic e => e.location
  | runtime fault => fault.location

def code : Failure → String
  | lexical _ => "lex::unexpected_character"
  | syntactic (.unexpectedToken _ _) => "parse::unexpected_token"
  | syntactic (.unexpectedEnd _ _) => "parse::unexpected_eof"
  | syntactic (.invalidAssignment _) => "parse::invalid_assignment"
  | runtime (.raised _ _) => "runtime::raised"
  | runtime (.unknownFunction _ _) => "runtime::unknown_function"
  | runtime (.unimplementedVerb _ _) => "runtime::unimplemented"

/-- What the location is marked with. -/
def label : Failure → String
  | lexical _ => "no token starts here"
  | syntactic (.unexpectedToken _ _) => "unexpected token here"
  | syntactic (.unexpectedEnd _ _) => "expected more tokens"
  | syntactic (.invalidAssignment _) => "cannot assign to this"
  | runtime (.raised _ _) => "raised here"
  | runtime (.unknownFunction _ _) => "not a builtin"
  | runtime (.unimplementedVerb _ _) => "not implemented"

def help? : Failure → Option String
  | runtime (.unknownFunction _ _) => some "only registered builtins can be called"
  | _ => none

/-- What a syntax error expected, if it is one of a missing token. -/
def expected? : Failure → Option String
  | syntactic (.unexpectedToken expected _) => some expected.text
  | syntactic (.unexpectedEnd expected _) => some expected.text
  | _ => none

def found? : Failure → Option String
  | lexical e => some e.found.toString
  | syntactic (.unexpectedToken _ found) => some ("'" ++ found.text ++ "'")
  | _ => none

/-- What a fault is about. -/
def subject? : Failure → Option String
  | runtime (.raised code _) => some code.name
  | runtime (.unknownFunction name _) => some name
  | runtime (.unimplementedVerb verb _) => some ("verb call `" ++ verb ++ "`")
  | _ => none

/-- The message without the place. -/
def summary : Failure → String
  | lexical e => "Unexpected character " ++ Text.quoted e.found.toString
  | syntactic (.unexpectedToken expected found) =>
    "Expected " ++ expected.text ++ ", found '" ++ found.text ++ "'"
  | syntactic (.unexpectedEnd expected _) =>
    "Expected " ++ expected.text ++ ", found end of input"
  | syntactic (.invalidAssignment _) => "Left side of '=' must be an identifier"
  | runtime (.raised code _) => code.message
  | runtime (.unknownFunction name _) => "Unknown function `" ++ name ++ "`"
  | runtime (.unimplementedVerb verb _) => "verb call `" ++ verb ++ "` is not implemented"

def message (f : Failure) : String := f.summary ++ " at " ++ f.location.position.text

end Failure
end MooScript
