import MooScript.Binary64
import MooScript.Decimal

/-! The shortest decimal that reads back as a double. -/
namespace MooScript.Decimal

/-- Which of two equally near decimals is taken. -/
inductive Tie
  | up
  | toEven

/-- Whether `candidate · 10 ^ k` rounds to the double `m · 2 ^ q`. The numbers that do lie between
the midpoints to its neighbours, the midpoints included if `m` is even; below a power of two the
neighbour is half as far. -/
def roundsTo (m : Nat) (q : Int) (k : Int) (candidate : Nat) : Bool :=
  let unit := powerOfTen (-k).toNat <<< q.toNat
  let scaled := 4 * candidate * powerOfTen k.toNat <<< (-q).toNat
  let low := (if m = Binary64.leadingBit ∧ -1074 < q then 4 * m - 1 else 4 * m - 2) * unit
  let high := (4 * m + 2) * unit
  if m % 2 = 0 then low ≤ scaled && scaled ≤ high else low < scaled && scaled < high

/-- The multiple of `10 ^ k` nearest to `m · 2 ^ q` among those that round to it. -/
def onGrid? (tie : Tie) (m : Nat) (q : Int) (k : Int) : Option Nat :=
  let value := m * powerOfTen (-k).toNat <<< q.toNat
  let step := powerOfTen k.toNat <<< (-q).toNat
  let below := value / step
  let rest := value % step
  let roundUp := step < 2 * rest ||
    (step == 2 * rest && match tie with | .up => true | .toEven => below % 2 == 1)
  match roundsTo m q k below, roundsTo m q k (below + 1) with
  | false, false => none
  | true, false => some below
  | false, true => some (below + 1)
  | true, true => some (if roundUp then below + 1 else below)

/-- A power of ten above `m · 2 ^ q`. -/
def powerAbove (m : Nat) (q : Int) : Int := (q + m.log2 + 1) * 30103 / 100000 + 2

/-- The size of a finite double by the fewest digits that round to it: the first power of ten,
from above, with a multiple that does. Seventeen digits always suffice. -/
def shortest (tie : Tie) (x : Float) : Decimal :=
  let m := Binary64.mantissa x
  let q := Binary64.exponent x
  if m = 0 then ⟨0, 0⟩ else
  let hit := (List.range 24).findSome? fun (i : Nat) =>
    let k := powerAbove m q - i
    (onGrid? tie m q k).map (⟨·, k⟩)
  hit.getD ⟨0, 0⟩

end MooScript.Decimal
