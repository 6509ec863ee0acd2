import MooScript.Binary64
import MooScript.Decimal
import MooScript.Word

/-! Reading integers and doubles from decimal text. -/
namespace MooScript.Decimal

/-- Splits a sign off; `true` is minus. -/
def splitSign : List Char → Bool × List Char
  | '-' :: cs => (true, cs)
  | '+' :: cs => (false, cs)
  | cs => (false, cs)

/-- An optional sign and at least one digit. -/
def readInteger? (s : String) : Option Int :=
  let (negative, cs) := splitSign s.toList
  if cs.isEmpty || !cs.all Char.isDigit then none
  else some (if negative then -(digitsValue cs : Int) else digitsValue cs)

/-- An integer of 64 bits. -/
def readInt64? (s : String) : Option Int64 := (readInteger? s).bind Word.int64?

/-- The double nearest to `digits · 10 ^ exponent`. -/
def nearest (digits : Nat) (exponent : Int) : Float :=
  Float.ofScientific digits (exponent < 0) exponent.natAbs

/-- What may follow the digits of a number: nothing, or an exponent. -/
def readExponent? : List Char → Option Int
  | [] => some 0
  | c :: cs => if c = 'e' || c = 'E' then readInteger? (String.ofList cs) else none

/-- Digits with at most a point among them, at least one digit in all, then an exponent. -/
def readUnsigned? (cs : List Char) : Option Float := do
  let whole := cs.takeWhile Char.isDigit
  let rest := cs.dropWhile Char.isDigit
  let (fraction, rest) := match rest with
    | '.' :: cs => (cs.takeWhile Char.isDigit, cs.dropWhile Char.isDigit)
    | cs => ([], cs)
  if whole.isEmpty && fraction.isEmpty then none
  else
    let exponent ← readExponent? rest
    some (nearest (digitsValue (whole ++ fraction)) (exponent - fraction.length))

/-- A double: a sign, then a number, `inf`, `infinity` or `nan` in any case. -/
def readFloat? (s : String) : Option Float := do
  let (negative, cs) := splitSign s.toList
  let word := String.ofList (cs.map Char.toLower)
  let size ←
    if word = "inf" || word = "infinity" then some (Binary64.infinity false)
    else if word = "nan" then some (0.0 / 0.0)
    else readUnsigned? cs
  some (if negative then Binary64.negate size else size)

end MooScript.Decimal
