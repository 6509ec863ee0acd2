import MooScript.Token.Lexer

/-! The texts of each kind of token, said without the scanner. -/
namespace MooScript

namespace Lexer

/-- What may stand between the quotes of a string: a backslash takes along the character behind it,
which may be a quote and may not be a line feed. -/
inductive QuotedBody : List Char → Prop
  | nil : QuotedBody []
  | plain {c : Char} {body : List Char} (hq : c ≠ '\x22') (hb : c ≠ '\\')
      (h : QuotedBody body) : QuotedBody (c :: body)
  | escape {c : Char} {body : List Char} (hc : c ≠ '\n') (h : QuotedBody body) :
      QuotedBody ('\\' :: c :: body)

/-- What stands behind the opening of a block comment: its first `*/` is its end. -/
structure CommentBody (body : List Char) : Prop where
  closed : ['*', '/'] <:+ body
  first : ∀ pre post, body = pre ++ '*' :: '/' :: post → post = []

structure IsDigits (text : List Char) : Prop where
  nonempty : text ≠ []
  digits : ∀ c ∈ text, c.isDigit = true

/-- Digits, with at most one point, which has digits on both sides. -/
def IsNumber (text : List Char) : Prop :=
  IsDigits text ∨
    ∃ whole fraction, text = whole ++ '.' :: fraction ∧ IsDigits whole ∧ IsDigits fraction

/-- Digits of a number that fits 64 bits with a sign. -/
structure IsInteger (text : List Char) : Prop where
  digits : IsDigits text
  small : Decimal.digitsValue text < Nat.pow 2 63

def IsWord : List Char → Prop
  | [] => False
  | c :: cs => isWordStart c = true ∧ ∀ d ∈ cs, isWordChar d = true

end Lexer

open Lexer

/-- The texts of a kind; the end of the input has none. -/
def Kind.Lexeme : Kind → List Char → Prop
  | comment, text =>
    (∃ line, text = '/' :: '/' :: line ∧ '\n' ∉ line) ∨
      ∃ body, text = '/' :: '*' :: body ∧ CommentBody body
  | keyword k, text => text = k.text.toList
  | integer, text => IsInteger text
  | float, text => IsNumber text ∧ ¬ IsInteger text
  | string, text => ∃ body, text = '\x22' :: (body ++ ['\x22']) ∧ QuotedBody body
  | identifier, text => IsWord text ∧ ∀ k : Keyword, text ≠ k.text.toList
  | symbol s, text => text = s.text.toList
  | eof, _ => False

end MooScript
