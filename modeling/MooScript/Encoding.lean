import MooScript.Value

/-! Byte encoding of values: what both directions share. -/
namespace MooScript.Encoding

abbrev Bytes := List UInt8

/-- The `size` low bytes of a number, the lowest first. -/
def littleEndian : (size : Nat) → Nat → Bytes
  | 0, _ => []
  | size + 1, n => UInt8.ofNat n :: littleEndian size (n / 256)

/-- The number that bytes stand for, the lowest first. -/
def ofLittleEndian : Bytes → Nat
  | [] => 0
  | b :: bytes => b.toNat + 256 * ofLittleEndian bytes

/-- How deeply lists may nest. -/
def maxDepth : Nat := 512

end MooScript.Encoding
