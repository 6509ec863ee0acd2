import MooScript.Encoding
import MooScript.Parsed
import MooScript.Value.Literal

/-! Reading a value back from bytes. -/
namespace MooScript

inductive DecodeError
  | truncated (offset needed : Nat)
  | unknownTag (tag : Int32)
  | unsupported (kind : ValueKind)
  | nonFinite (x : Float)
  | invalidChar (code : Nat)
  | invalidUtf8
  | tooDeep
  | trailingBytes (count : Nat)
  deriving DecidableEq

def DecodeError.message : DecodeError → String
  | truncated offset needed =>
    "input ended after " ++ toString offset ++ " bytes, " ++ toString needed ++ " more needed"
  | unknownTag tag => "unknown kind tag " ++ toString tag.toInt
  | unsupported kind => "cannot encode a value of kind " ++ kind.name
  | nonFinite x => "float " ++ Binary64.text x ++ " is not finite"
  | invalidChar code => "invalid character code 0x" ++ Text.hex code
  | invalidUtf8 => "invalid UTF-8 in string payload"
  | tooDeep => "lists nested deeper than " ++ toString Encoding.maxDepth ++ " levels"
  | trailingBytes count => toString count ++ " trailing bytes after value"

namespace Encoding

theorem length_drop_lt (n : Nat) (bytes : Bytes) : (bytes.drop n).length < bytes.length + 1 := by
  rw [List.length_drop]
  omega

/-- What a step makes of bytes of which it takes at least one. -/
abbrev Step (α : Type) (bytes : Bytes) := Reading DecodeError UInt8 α bytes.length

/-- What a step makes of bytes of which it may take none. -/
abbrev Tail (α : Type) (bytes : Bytes) := Reading DecodeError UInt8 α (bytes.length + 1)

section

variable (size : Nat)

/-- Takes `n` bytes; `size` is the length of the whole input, to tell where it ended. -/
def take (n : Nat) (bytes : Bytes) : Tail Bytes bytes :=
  let taken := bytes.take n
  if taken.length < n then .error (.truncated (size - bytes.length) (n - bytes.length))
  else .ok ⟨taken, bytes.drop n, length_drop_lt n bytes⟩

/-- Takes a number of `n` bytes. -/
def takeNat (n : Nat) (bytes : Bytes) : Tail Nat bytes :=
  (take size n bytes).map ofLittleEndian

/-- Takes a kind tag. -/
def takeKind (bytes : Bytes) : Step ValueKind bytes :=
  match bytes with
  | a :: b :: c :: d :: rest =>
    let tag := (UInt32.ofNat (ofLittleEndian [a, b, c, d])).toInt32
    match ValueKind.ofTag? tag with
    | some kind => (Reading.keep kind rest).widen.widen.widen
    | none => .error (.unknownTag tag)
  | bytes => .error (.truncated (size - bytes.length) (4 - bytes.length))

def takeFloat (bytes : Bytes) : Tail Value bytes :=
  (takeNat size 8 bytes).andThen fun n rest _ =>
    match Binary64.ofBits? (UInt64.ofNat n) with
    | some x => .keep (.float x) rest
    | none => .error (.nonFinite (Float.ofBits (UInt64.ofNat n)))

def takeCharacter (bytes : Bytes) : Tail Value bytes :=
  (takeNat size 4 bytes).andThen fun n rest _ =>
    if n.isValidChar then .keep (.character (Char.ofNat n)) rest else .error (.invalidChar n)

def takeString (bytes : Bytes) : Tail Value bytes :=
  (takeNat size 4 bytes).andThen fun n rest _ =>
  (take size n rest).andThen fun text rest _ =>
  match String.fromUTF8? (ByteArray.mk text.toArray) with
  | some s => .keep (.string s) rest
  | none => .error .invalidUtf8

mutual

/-- Takes a value that `depth` lists enclose. -/
def takeValue (depth : Nat) (bytes : Bytes) : Step Value bytes :=
  (takeKind size bytes).andThen fun kind rest _ =>
    match kind with
    | .boolean => (takeNat size 1 rest).map fun n => .boolean (n != 0)
    | .integer => (takeNat size 8 rest).map fun n => .integer (UInt64.ofNat n).toInt64
    | .object => (takeNat size 4 rest).map fun n => .object (UInt32.ofNat n).toInt32
    | .float => takeFloat size rest
    | .character => takeCharacter size rest
    | .string => takeString size rest
    | .list =>
      if maxDepth ≤ depth then .error .tooDeep
      else
        (takeNat size 4 rest).andThen fun count rest _ =>
          (takeValues (depth + 1) count rest).map .list
    | kind => .error (.unsupported kind)
termination_by 2 * bytes.length

/-- Takes as many values. -/
def takeValues (depth count : Nat) (bytes : Bytes) : Tail (List Value) bytes :=
  match count with
  | 0 => .keep [] bytes
  | count + 1 =>
    .widen <| (takeValue depth bytes).andThen fun value rest _ =>
      (takeValues depth count rest).map (value :: ·)
termination_by 2 * bytes.length + 1

end

end

end Encoding

/-- The value that the bytes are, without a byte left over. -/
def Value.decode (bytes : Encoding.Bytes) : Except DecodeError Value := do
  let ⟨value, rest, _⟩ ← Encoding.takeValue bytes.length 0 bytes
  if rest.isEmpty then return value else .error (.trailingBytes rest.length)

end MooScript
