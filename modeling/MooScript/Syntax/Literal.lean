import MooScript.Decimal.Reader
import MooScript.Syntax.Error
import MooScript.Value

/-! The values that literal tokens denote. -/
namespace MooScript.Syntax

/-- Resolves the escapes of a string. A backslash before any other character stands for that
character, and at the end for itself. -/
def unescape : List Char → List Char
  | '\\' :: c :: cs =>
    (match c with
      | 'n' => '\n'
      | 't' => '\t'
      | 'r' => '\r'
      | '0' => '\x00'
      | c => c) :: unescape cs
  | c :: cs => c :: unescape cs
  | [] => []

/-- The text between two quotes, or the whole text if it is not in quotes. -/
def unquote (cs : List Char) : List Char :=
  match cs with
  | '\x22' :: body => if body.getLast? = some '\x22' then body.dropLast else cs
  | _ => cs

def stringValue (text : String) : String := String.ofList (unescape (unquote text.toList))

/-- The value of an integer, float or string token. -/
def literalValue? (t : Token) : Option Value :=
  match t.kind with
  | .integer => (Decimal.readInt64? t.text).map .integer
  | .float => (Decimal.readFloat? t.text).map .float
  | .string => some (.string (stringValue t.text))
  | _ => none

/-- The object of a number, negated before it is narrowed to 32 bits. The negation wraps around. -/
def objectId? (negative : Bool) (t : Token) : Option ObjectId := do
  let n ← Decimal.readInt64? t.text
  Word.int32? (if negative then -n else n).toInt

end MooScript.Syntax
