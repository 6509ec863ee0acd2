import MooScript.Source

/-! Tokens and their kinds. -/
namespace MooScript

inductive Keyword
  | if_ | elseIf | else_ | endIf | for_ | in_ | endFor | return_ | try_ | except | endTry
  | any | true_ | false_
  deriving DecidableEq

namespace Keyword

def all : List Keyword :=
  [if_, elseIf, else_, endIf, for_, in_, endFor, return_, try_, except, endTry, any, true_, false_]

def text : Keyword → String
  | if_ => "if"
  | elseIf => "elseif"
  | else_ => "else"
  | endIf => "endif"
  | for_ => "for"
  | in_ => "in"
  | endFor => "endfor"
  | return_ => "return"
  | try_ => "try"
  | except => "except"
  | endTry => "endtry"
  | any => "any"
  | true_ => "true"
  | false_ => "false"

def ofText? (s : String) : Option Keyword := all.find? (·.text == s)

end Keyword

inductive Symbol
  | equalEqual | bangEqual | lessEqual | greaterEqual | ampAmp | pipePipe | dotDot | fatArrow
  | leftParen | rightParen | leftBrace | rightBrace | leftBracket | rightBracket
  | comma | semicolon | dot | colon | plus | minus | star | slash | percent
  | equal | less | greater | bang | hash | dollar | caret | backtick | quote
  deriving DecidableEq

namespace Symbol

/-- Every symbol, the longer before the shorter. -/
def all : List Symbol :=
  [equalEqual, bangEqual, lessEqual, greaterEqual, ampAmp, pipePipe, dotDot, fatArrow,
    leftParen, rightParen, leftBrace, rightBrace, leftBracket, rightBracket,
    comma, semicolon, dot, colon, plus, minus, star, slash, percent,
    equal, less, greater, bang, hash, dollar, caret, backtick, quote]

def text : Symbol → String
  | equalEqual => "=="
  | bangEqual => "!="
  | lessEqual => "<="
  | greaterEqual => ">="
  | ampAmp => "&&"
  | pipePipe => "||"
  | dotDot => ".."
  | fatArrow => "=>"
  | leftParen => "("
  | rightParen => ")"
  | leftBrace => "\x7b"
  | rightBrace => "\x7d"
  | leftBracket => "["
  | rightBracket => "]"
  | comma => ","
  | semicolon => ";"
  | dot => "."
  | colon => ":"
  | plus => "+"
  | minus => "-"
  | star => "*"
  | slash => "/"
  | percent => "%"
  | equal => "="
  | less => "<"
  | greater => ">"
  | bang => "!"
  | hash => "#"
  | dollar => "$"
  | caret => "^"
  | backtick => "`"
  | quote => "'"

end Symbol

/-- What a token is; the lexer makes none of kind `eof`. -/
inductive Kind
  | comment
  | keyword (k : Keyword)
  | integer
  | float
  | string
  | identifier
  | symbol (s : Symbol)
  | eof
  deriving DecidableEq

namespace Kind

def all : List Kind :=
  [comment] ++ Keyword.all.map keyword ++ [integer, float, string, identifier] ++
    Symbol.all.map symbol ++ [eof]

/-- The fixed text of a kind, or a word in angle brackets for a kind of many texts. -/
def text : Kind → String
  | comment => "<comment>"
  | keyword k => k.text
  | integer => "<integer>"
  | float => "<float>"
  | string => "<string>"
  | identifier => "<identifier>"
  | symbol s => s.text
  | eof => "<eof>"

def isKeyword : Kind → Bool
  | keyword _ => true
  | _ => false

end Kind

structure Token where
  kind : Kind
  span : Span
  text : String
  position : Position
  deriving DecidableEq

namespace Token

def location (t : Token) : Location := ⟨t.position, t.span⟩

/-- The end of the input after `last`, or of an empty input. -/
def endOfInput : Option Token → Token
  | some last =>
    ⟨.eof, .point last.span.stop, "", (Cursor.after ⟨0, last.position⟩ last.text.toList).position⟩
  | none => ⟨.eof, .point 0, "", ⟨1, 1⟩⟩

end Token
end MooScript
