import MooScript.Text.Unprintable

/-! Text between double quotes, with what cannot be seen escaped. -/
namespace MooScript.Text

/-- Digits to base 16, in lower case. -/
def hex (n : Nat) : String := String.ofList (Nat.toDigits 16 n)

def escaped (c : Char) : List Char :=
  if c = '\x00' then ['\\', '0']
  else if c = '\t' then ['\\', 't']
  else if c = '\r' then ['\\', 'r']
  else if c = '\n' then ['\\', 'n']
  else if c = '\x22' || c = '\\' then ['\\', c]
  else if isUnprintable c then ("\\u\x7b" ++ hex c.toNat ++ "\x7d").toList
  else [c]

def quoted (s : String) : String :=
  String.ofList ('\x22' :: s.toList.flatMap escaped ++ ['\x22'])

end MooScript.Text
