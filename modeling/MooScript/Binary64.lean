/-! Doubles by their bit patterns: order, conversion of integers, exact remainder. -/
namespace MooScript.Binary64

/-- The bit above the 52 of a fraction: the leading one of a mantissa, the least of an exponent. -/
def leadingBit : Nat := 1 <<< 52

def signBit : Nat := 1 <<< 63

/-- The pattern of a double without its sign bit; below `infinityMagnitude` it is the number of
nonnegative doubles that are smaller. -/
def magnitude (x : Float) : Nat := x.toBits.toNat % signBit

def infinityMagnitude : Nat := 2047 * leadingBit

def isNegative (x : Float) : Bool := signBit ≤ x.toBits.toNat

def isZero (x : Float) : Bool := magnitude x == 0

def isNaN (x : Float) : Bool := infinityMagnitude < magnitude x

def isFinite (x : Float) : Bool := magnitude x < infinityMagnitude

/-- Where a double stands on the line; both zeros stand at 0. -/
def rank (x : Float) : Int := if isNegative x then -(magnitude x : Int) else magnitude x

/-- The order of doubles; a NaN has no place in it. -/
def compare? (x y : Float) : Option Ordering :=
  if isNaN x || isNaN y then none else some (compare (rank x) (rank y))

theorem valid_of_finite {bits : UInt64} (h : bits.toNat % signBit < infinityMagnitude) :
    Float.Model.Format.binary64.Valid bits.toBitVec := by
  constructor
  intro full
  exfalso
  have field : (bits.toBitVec.extractLsb' 52 11).toNat = 2047 := by
    rw [show bits.toBitVec.extractLsb' 52 11 = -1#11 from full]; rfl
  rw [BitVec.extractLsb'_toNat, Nat.shiftRight_eq_div_pow,
    show bits.toBitVec.toNat = bits.toNat from rfl] at field
  simp only [infinityMagnitude, leadingBit, signBit, Nat.reduceShiftLeft, Nat.reduceMul] at h
  omega

/-- The finite double that a pattern stands for. -/
def ofBits? (bits : UInt64) : Option Float :=
  if h : bits.toNat % signBit < infinityMagnitude then
    some (.ofModel ⟨bits, valid_of_finite h⟩)
  else none

def infinity (negative : Bool) : Float := if negative then -1.0 / 0.0 else 1.0 / 0.0

/-- The double of a magnitude under a sign, infinite from `infinityMagnitude` on. -/
def ofMagnitude (negative : Bool) (magnitude : Nat) : Float :=
  let bits := UInt64.ofNat ((if negative then signBit else 0) + magnitude)
  (ofBits? bits).getD (infinity negative)

def negate (x : Float) : Float :=
  if isNaN x then x else ofMagnitude (!isNegative x) (magnitude x)

/-- A finite double is `mantissa · 2 ^ exponent` under its sign. -/
def mantissa (x : Float) : Nat :=
  if magnitude x < leadingBit then magnitude x else leadingBit + magnitude x % leadingBit

def exponent (x : Float) : Int := max 1 (magnitude x / leadingBit : Nat) - 1075

/-- The magnitude of `m · 2 ^ e`, for a value that a double can hold. -/
def magnitudeOfScaled (m : Nat) (e : Int) : Nat :=
  if m = 0 then 0
  else
    let shift := min (52 - m.log2) (e + 1074).toNat
    (e + 1074 - shift).toNat * leadingBit + m <<< shift

/-- `n / 2 ^ shift` to the nearest, ties to even. -/
def halved (n shift : Nat) : Nat :=
  let unit := 1 <<< shift
  let rest := n % unit
  let whole := n / unit
  if unit < 2 * rest ∨ (unit = 2 * rest ∧ whole % 2 = 1) then whole + 1 else whole

/-- The double nearest to an integer, ties to even. -/
def ofInt64 (n : Int64) : Float :=
  let size := n.toInt.natAbs
  let excess := size.log2 - 52
  ofMagnitude (n < 0) (magnitudeOfScaled (halved size excess) excess)

/-- The smaller of two doubles, the first if they are equal; a NaN gives way. -/
def least (x y : Float) : Float :=
  if isNaN x then y else if compare? y x = some .lt then y else x

/-- The larger of two doubles, the first if they are equal; a NaN gives way. -/
def greatest (x y : Float) : Float :=
  if isNaN x then y else if compare? y x = some .gt then y else x

/-- What is left of `x` after its whole multiples of `y`, under the sign of `x`; a NaN when `x` is
infinite or `y` is zero. -/
def remainder (x y : Float) : Float :=
  if isNaN x || isNaN y || !isFinite x || isZero y then 0.0 / 0.0
  else if !isFinite y then x
  else
    let e := min (exponent x) (exponent y)
    let a := mantissa x <<< (exponent x - e).toNat
    let b := mantissa y <<< (exponent y - e).toNat
    ofMagnitude (isNegative x) (magnitudeOfScaled (a % b) e)

end MooScript.Binary64
