import MooScript.Encoding
import MooScript.Value.Literal

/-! Writing a value as bytes: a kind tag, then what the kind needs. -/
namespace MooScript

inductive EncodeError
  | unsupported (kind : ValueKind)
  | nonFinite (x : Float)
  | tooLong (count : Nat)
  | tooDeep
  deriving DecidableEq

def EncodeError.message : EncodeError → String
  | unsupported kind => "cannot encode a value of kind " ++ kind.name
  | nonFinite x => "float " ++ Binary64.text x ++ " is not finite"
  | tooLong count => toString count ++ " elements do not fit a length prefix"
  | tooDeep => "lists nested deeper than " ++ toString Encoding.maxDepth ++ " levels"

namespace Encoding

def tagBytes (kind : ValueKind) : Bytes := littleEndian 4 kind.tag.toUInt32.toNat

/-- A count of at most 32 bits. -/
def lengthBytes (n : Nat) : Except EncodeError Bytes :=
  if n < UInt32.size then .ok (littleEndian 4 n) else .error (.tooLong n)

mutual

/-- The payload of a value that `depth` lists enclose. -/
def payload (depth : Nat) : Value → Except EncodeError Bytes
  | .boolean b => .ok [if b then 1 else 0]
  | .integer n => .ok (littleEndian 8 n.toUInt64.toNat)
  | .float x =>
    if Binary64.isFinite x then .ok (littleEndian 8 x.toBits.toNat) else .error (.nonFinite x)
  | .character c => .ok (littleEndian 4 c.toNat)
  | .object id => .ok (littleEndian 4 id.toUInt32.toNat)
  | .string s => do
    let count ← lengthBytes s.utf8ByteSize
    return count ++ s.toUTF8.toList
  | .list items =>
    if maxDepth ≤ depth then .error .tooDeep
    else do
      let count ← lengthBytes items.length
      let bytes ← payloads (depth + 1) items
      return count ++ bytes
  | .error _ => .error (.unsupported .error)
  | .returned _ => .error (.unsupported .returned)

/-- The items of a list, each with its tag. -/
def payloads (depth : Nat) : List Value → Except EncodeError Bytes
  | [] => .ok []
  | value :: items => do
    let first ← payload depth value
    let rest ← payloads depth items
    return tagBytes value.kind ++ first ++ rest

end

end Encoding

def Value.encode (value : Value) : Except EncodeError Encoding.Bytes := do
  let bytes ← Encoding.payload 0 value
  return Encoding.tagBytes value.kind ++ bytes

end MooScript
