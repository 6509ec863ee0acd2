/-! Decimal numbers, their digits and the ways they are written. -/
namespace MooScript

/-- The number `digits · 10 ^ exponent`. -/
structure Decimal where
  digits : Nat
  exponent : Int
  deriving DecidableEq

namespace Decimal

/-- The number that a run of digits denotes. -/
def digitsValue (cs : List Char) : Nat :=
  cs.foldl (fun n c => 10 * n + (c.toNat - '0'.toNat)) 0

/-- A one with `n` zeros. -/
def powerOfTen (n : Nat) : Nat := Nat.pow 10 n

def zeros (n : Nat) : String := String.ofList (List.replicate n '0')

/-- All digits and at most a point, never an exponent. -/
def positional (d : Decimal) : String :=
  let digits := toString d.digits
  let point := digits.length + d.exponent
  if 0 ≤ d.exponent then digits ++ zeros d.exponent.toNat
  else if 0 < point then
    (digits.take point.toNat).toString ++ "." ++ (digits.drop point.toNat).toString
  else "0." ++ zeros (-point).toNat ++ digits

/-- One digit before the point, the rest behind it, and the exponent, which always has a sign. -/
def scientific (d : Decimal) : String :=
  let digits := toString d.digits
  let power := digits.length + d.exponent - 1
  let fraction := if digits.length = 1 then "" else "." ++ (digits.drop 1).toString
  let sign := if power < 0 then "-" else "+"
  (digits.take 1).toString ++ fraction ++ "e" ++ sign ++ toString power.natAbs

end Decimal
end MooScript
