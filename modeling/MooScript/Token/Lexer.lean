import MooScript.Decimal
import MooScript.Token
import MooScript.Word

/-! Splitting a source text into its tokens, each as long as can be. -/
namespace MooScript

/-- A character that begins no token. -/
structure LexicalError where
  found : Char
  cursor : Cursor
  deriving DecidableEq

def LexicalError.location (e : LexicalError) : Location :=
  ⟨e.cursor.position, e.cursor.offset, e.cursor.offset + e.found.utf8Size⟩

namespace Lexer

def isBlank (c : Char) : Bool :=
  c == ' ' || c == '\t' || c == '\r' || c == '\n' || c == '\x0c'

/-- Letters here are those of ASCII. -/
def isWordStart (c : Char) : Bool := c.isAlpha || c == '_'

def isWordChar (c : Char) : Bool := isWordStart c || c.isDigit

/-- How many characters up to the first `*/`, it included. -/
def throughCommentEnd? : List Char → Option Nat
  | '*' :: '/' :: _ => some 2
  | _ :: cs => (throughCommentEnd? cs).map (· + 1)
  | [] => none

/-- How many characters up to the closing quote, it included. A backslash takes the next character
along, which may not be a line feed. -/
def throughClosingQuote? : List Char → Option Nat
  | [] => none
  | '\x22' :: _ => some 1
  | '\\' :: c :: cs => if c = '\n' then none else (throughClosingQuote? cs).map (· + 2)
  | _ :: cs => (throughClosingQuote? cs).map (· + 1)

def digitCount (cs : List Char) : Nat := (cs.takeWhile Char.isDigit).length

/-- How many characters of `cs` continue a number: digits, then a point if a digit follows it. -/
def numberLength (cs : List Char) : Nat :=
  let whole := digitCount cs
  match cs.drop whole with
  | '.' :: rest => if digitCount rest = 0 then whole else whole + 1 + digitCount rest
  | _ => whole

/-- Digits that fit an integer are one; any other number is a float. -/
def numberKind (text : List Char) : Kind :=
  if text.all Char.isDigit && (Word.int64? (Decimal.digitsValue text)).isSome then .integer
  else .float

def wordKind (text : List Char) : Kind :=
  match Keyword.ofText? (String.ofList text) with
  | some k => .keyword k
  | none => .identifier

def symbol? (cs : List Char) : Option Symbol :=
  Symbol.all.find? fun s => s.text.toList.isPrefixOf cs

/-- The kind of the longest token at the front of `c :: cs`, and how many characters of `cs` it
takes. -/
def munch? (c : Char) (cs : List Char) : Option (Kind × Nat) :=
  if c.isDigit then
    let n := numberLength cs
    some (numberKind (c :: cs.take n), n)
  else if isWordStart c then
    let word := cs.takeWhile isWordChar
    some (wordKind (c :: word), word.length)
  else match c, cs with
    | '\x22', cs => (throughClosingQuote? cs).map (.string, ·)
    | '/', '/' :: rest => some (.comment, (rest.takeWhile (· != '\n')).length + 1)
    | '/', '*' :: rest => (throughCommentEnd? rest).map fun n => (.comment, n + 1)
    | c, cs => (symbol? (c :: cs)).map fun s => (.symbol s, s.text.length - 1)

/-- The tokens of `cs`, a text that starts at `cursor`. -/
def scan (cursor : Cursor) : List Char → Except LexicalError (List Token)
  | [] => .ok []
  | c :: cs =>
    if isBlank c then scan (cursor.next c) cs
    else match munch? c cs with
      | none => .error ⟨c, cursor⟩
      | some (kind, n) => do
        let text := c :: cs.take n
        let stop := cursor.after text
        let tokens ← scan stop (cs.drop n)
        return ⟨kind, ⟨cursor.offset, stop.offset⟩, String.ofList text, cursor.position⟩ :: tokens
termination_by cs => cs.length
decreasing_by
  · simp only [List.length_cons]; omega
  · simp only [List.length_drop, List.length_cons]; omega

end Lexer

/-- The tokens of a source text, comments among them. -/
def Token.lex (source : String) : Except LexicalError (List Token) :=
  Lexer.scan .start source.toList

end MooScript
