import MooScript.Decimal.Shortest
import MooScript.Text.Quoted
import MooScript.Value

/-! The text of a value: as it is displayed, and as a literal. -/
namespace MooScript

/-- The fewest digits that read back, positional; whole numbers of at most 16 digits get one
decimal. -/
def Binary64.text (x : Float) : String :=
  let sign := if isNegative x then "-" else ""
  if isNaN x then "NaN"
  else if !isFinite x then sign ++ "inf"
  else
    let d := Decimal.shortest .up x
    let isWhole := 0 ≤ d.exponent && (toString d.digits).length + d.exponent ≤ 16
    sign ++ d.positional ++ if isWhole then ".0" else ""

namespace Value

mutual

/-- A value as it stands inside a list: strings and characters in quotes, errors by name. -/
def literal : Value → String
  | boolean b => if b then "true" else "false"
  | integer n => toString n.toInt
  | float x => Binary64.text x
  | character c => "'" ++ c.toString ++ "'"
  | string s => Text.quoted s
  | object id => "#" ++ toString id.toInt
  | list items => "\x7b" ++ ", ".intercalate (literals items) ++ "\x7d"
  | error code => code.name
  | returned value => value.literal

def literals : List Value → List String
  | [] => []
  | value :: items => value.literal :: literals items

end

/-- A value as it is shown to a reader: strings and characters bare, errors by their message. -/
def display : Value → String
  | character c => c.toString
  | string s => s
  | error code => code.message
  | returned value => value.display
  | value => value.literal

end Value
end MooScript
