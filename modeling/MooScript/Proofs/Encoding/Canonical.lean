import Mathlib
import MooScript.Proofs.Binary64.Magnitude
import MooScript.Proofs.Encoding.RoundTrip

/-! Bytes that decode to a value are those of its encoding, but for the payloads of booleans: there
any byte other than 0 is read as true, and true is written as 1. -/
namespace MooScript

mutual

/-- Which bytes of a value's encoding are payloads of booleans. -/
def Value.booleanMask : Value → List Bool
  | .boolean _ => [false, false, false, false, true]
  | .list items => List.replicate 8 false ++ Value.booleanMaskOfItems items
  | .string s => List.replicate (8 + s.utf8ByteSize) false
  | .integer _ | .float _ => List.replicate 12 false
  | .character _ | .object _ => List.replicate 8 false
  | .error _ | .returned _ => List.replicate 4 false

def Value.booleanMaskOfItems : List Value → List Bool
  | [] => []
  | value :: items => value.booleanMask ++ Value.booleanMaskOfItems items

end

namespace Encoding

variable {size depth k n : Nat} {bytes rest used : Bytes} {mask mask' : List Bool} {value : Value}

/-- What is written where `b` was read. -/
def canonicalByte (isBoolean : Bool) (b : UInt8) : UInt8 :=
  if isBoolean then (if b = 0 then 0 else 1) else b

/-- `written` is `used` with the bytes under the mask made canonical. -/
structure Canonical (mask : List Bool) (used written : Bytes) : Prop where
  length_mask : mask.length = used.length
  written_eq : written = List.zipWith canonicalByte mask used

theorem canonical_nil : Canonical [] [] [] := ⟨rfl, rfl⟩

theorem Canonical.append {used' written written' : Bytes} (h : Canonical mask used written)
    (h' : Canonical mask' used' written') :
    Canonical (mask ++ mask') (used ++ used') (written ++ written') := by
  obtain ⟨hmask, rfl⟩ := h
  obtain ⟨hmask', rfl⟩ := h'
  refine ⟨by rw [List.length_append, List.length_append, hmask, hmask'], ?_⟩
  exact (List.zipWith_append hmask).symm

/-- Bytes outside the payloads of booleans are written as they were read. -/
theorem canonical_replicate (h : used.length = n) :
    Canonical (List.replicate n false) used used := by
  subst h
  refine ⟨List.length_replicate, ?_⟩
  induction used with
  | nil => rfl
  | cons b used ih =>
    rw [List.length_cons, List.replicate_succ, List.zipWith_cons_cons, ← ih]
    rfl

/-! ### Scalars -/

theorem littleEndian_ofLittleEndian (bytes : Bytes) :
    littleEndian bytes.length (ofLittleEndian bytes) = bytes := by
  induction bytes with
  | nil => rfl
  | cons b bytes ih =>
    have hb : b.toNat < 256 := b.toNat_lt
    have hlow : UInt8.ofNat (b.toNat + 256 * ofLittleEndian bytes) = b := by
      apply UInt8.toNat_inj.mp
      rw [UInt8.toNat_ofNat']
      omega
    have hhigh : (b.toNat + 256 * ofLittleEndian bytes) / 256 = ofLittleEndian bytes := by omega
    rw [ofLittleEndian, List.length_cons, littleEndian, hlow, hhigh, ih]

theorem ofLittleEndian_lt (bytes : Bytes) : ofLittleEndian bytes < Nat.pow 256 bytes.length := by
  induction bytes with
  | nil => exact Nat.zero_lt_one
  | cons b bytes ih =>
    have hb : b.toNat < 256 := b.toNat_lt
    have hpow : Nat.pow 256 (bytes.length + 1) = Nat.pow 256 bytes.length * 256 := rfl
    rw [ofLittleEndian, List.length_cons, hpow]
    omega

theorem eq_of_yields_take (h : (take size k bytes).Yields used rest) :
    bytes = used ++ rest ∧ used.length = k := by
  obtain ⟨hlt, h⟩ := h
  unfold take at h
  dsimp only at h
  split at h
  next => cases h
  next hlen =>
    cases h
    refine ⟨(List.take_append_drop k bytes).symm, ?_⟩
    rw [List.length_take] at hlen ⊢
    omega

theorem eq_of_yields_takeNat (h : (takeNat size k bytes).Yields n rest) :
    bytes = littleEndian k n ++ rest ∧ n < Nat.pow 256 k := by
  obtain ⟨used, hused, rfl⟩ := Reading.yields_map_iff.mp h
  obtain ⟨rfl, rfl⟩ := eq_of_yields_take hused
  rw [littleEndian_ofLittleEndian]
  exact ⟨rfl, ofLittleEndian_lt used⟩

/-- The tag of a kind is read from no other four bytes. -/
theorem eq_of_yields_takeKind {kind : ValueKind} (h : (takeKind size bytes).Yields kind rest) :
    bytes = tagBytes kind ++ rest := by
  unfold takeKind at h
  split at h
  next a b c d tail =>
    dsimp only at h
    split at h
    next kind' hkind =>
      simp only [Reading.yields_widen_iff, Reading.yields_keep_iff] at h
      obtain ⟨rfl, rfl⟩ := h
      have htag : kind'.tag = (UInt32.ofNat (ofLittleEndian [a, b, c, d])).toInt32 := by
        have hfound := List.find?_some hkind
        simpa using hfound
      have hsize : Nat.pow 256 4 = UInt32.size := by decide
      have hlt : ofLittleEndian [a, b, c, d] < UInt32.size :=
        hsize ▸ ofLittleEndian_lt [a, b, c, d]
      have hnat : kind'.tag.toUInt32.toNat = ofLittleEndian [a, b, c, d] := by
        rw [htag, UInt32.toUInt32_toInt32, UInt32.toNat_ofNat_of_lt' hlt]
      have hbytes : littleEndian 4 (ofLittleEndian [a, b, c, d]) = [a, b, c, d] :=
        littleEndian_ofLittleEndian [a, b, c, d]
      rw [tagBytes, hnat, hbytes]
      rfl
    next => exact absurd h Reading.yields_error_iff
  next => exact absurd h Reading.yields_error_iff

/-- Text that is read as a string is its encoding. -/
theorem toList_toUTF8_of_fromUTF8? {text : Bytes} {s : String}
    (h : String.fromUTF8? (ByteArray.mk text.toArray) = some s) : s.toUTF8.toList = text := by
  unfold String.fromUTF8? at h
  split at h
  next hvalid =>
    cases h
    rw [toList_eq_data]
    rfl
  next => cases h

/-- The bytes up to `rest` are those that the value is written as, but for its booleans. -/
def WrittenBack (depth : Nat) (value : Value) (bytes rest : Bytes) : Prop :=
  ∃ used written, bytes = used ++ rest ∧ payload depth value = .ok written ∧
    Canonical value.booleanMask used (tagBytes value.kind ++ written)

theorem writtenBack_of_payload (value : Value) (rest : Bytes) {written : Bytes}
    (hp : payload depth value = .ok written)
    (hmask : value.booleanMask = List.replicate (4 + written.length) false) :
    WrittenBack depth value (tagBytes value.kind ++ (written ++ rest)) rest := by
  refine ⟨tagBytes value.kind ++ written, written, (List.append_assoc _ _ _).symm, hp, ?_⟩
  rw [hmask]
  apply canonical_replicate
  rw [List.length_append, tagBytes, length_littleEndian]

theorem writtenBack_boolean (h : (takeNat size 1 bytes).Yields n rest) :
    WrittenBack depth (.boolean (n != 0)) (tagBytes .boolean ++ bytes) rest := by
  obtain ⟨used, hused, rfl⟩ := Reading.yields_map_iff.mp h
  obtain ⟨rfl, hlen⟩ := eq_of_yields_take hused
  obtain ⟨b, rfl⟩ := List.length_eq_one_iff.mp hlen
  refine ⟨tagBytes .boolean ++ [b], _, (List.append_assoc _ _ _).symm, rfl, ?_⟩
  have htag : Canonical (List.replicate 4 false) (tagBytes .boolean) (tagBytes .boolean) :=
    canonical_replicate (length_littleEndian 4 _)
  apply htag.append
  refine ⟨rfl, ?_⟩
  have hvalue : ofLittleEndian [b] = b.toNat := by simp [ofLittleEndian]
  by_cases hb : b = 0
  · subst hb
    rfl
  · have hne : b.toNat ≠ 0 := fun hzero => hb (UInt8.toNat_inj.mp hzero)
    simp [canonicalByte, hvalue, hb, hne]

theorem writtenBack_integer (h : (takeNat size 8 bytes).Yields n rest) :
    WrittenBack depth (.integer (UInt64.ofNat n).toInt64) (tagBytes .integer ++ bytes) rest := by
  obtain ⟨rfl, hsmall⟩ := eq_of_yields_takeNat h
  have hsize : Nat.pow 256 8 = UInt64.size := by decide
  apply writtenBack_of_payload (.integer (UInt64.ofNat n).toInt64) rest
  · rw [payload, UInt64.toUInt64_toInt64, UInt64.toNat_ofNat_of_lt' (hsize ▸ hsmall)]
  · rw [length_littleEndian]
    rfl

theorem writtenBack_object (h : (takeNat size 4 bytes).Yields n rest) :
    WrittenBack depth (.object (UInt32.ofNat n).toInt32) (tagBytes .object ++ bytes) rest := by
  obtain ⟨rfl, hsmall⟩ := eq_of_yields_takeNat h
  have hsize : Nat.pow 256 4 = UInt32.size := by decide
  apply writtenBack_of_payload (.object (UInt32.ofNat n).toInt32) rest
  · rw [payload, UInt32.toUInt32_toInt32, UInt32.toNat_ofNat_of_lt' (hsize ▸ hsmall)]
  · rw [length_littleEndian]
    rfl

theorem writtenBack_float (h : (takeFloat size bytes).Yields value rest) :
    value.kind = .float ∧ WrittenBack depth value (tagBytes .float ++ bytes) rest := by
  obtain ⟨n, mid, hlt, hn, hvalue⟩ := Reading.yields_andThen_iff.mp h
  obtain ⟨rfl, hsmall⟩ := eq_of_yields_takeNat hn
  split at hvalue
  next x hx =>
    obtain ⟨rfl, rfl⟩ := Reading.yields_keep_iff.mp hvalue
    obtain ⟨hbits, hfinite⟩ := Binary64.toBits_of_ofBits? hx
    have hsize : Nat.pow 256 8 = UInt64.size := by decide
    refine ⟨rfl, writtenBack_of_payload _ mid ?_ ?_⟩
    · rw [payload, if_pos hfinite, hbits, UInt64.toNat_ofNat_of_lt' (hsize ▸ hsmall)]
    · rw [length_littleEndian]
      rfl
  next => exact absurd hvalue Reading.yields_error_iff

theorem writtenBack_character (h : (takeCharacter size bytes).Yields value rest) :
    value.kind = .character ∧ WrittenBack depth value (tagBytes .character ++ bytes) rest := by
  obtain ⟨n, mid, hlt, hn, hvalue⟩ := Reading.yields_andThen_iff.mp h
  obtain ⟨rfl, hsmall⟩ := eq_of_yields_takeNat hn
  split at hvalue
  next hvalid =>
    obtain ⟨rfl, rfl⟩ := Reading.yields_keep_iff.mp hvalue
    refine ⟨rfl, writtenBack_of_payload _ mid ?_ ?_⟩
    · rw [payload, Char.toNat_ofNat, if_pos hvalid]
    · rw [length_littleEndian]
      rfl
  next => exact absurd hvalue Reading.yields_error_iff

theorem writtenBack_string (h : (takeString size bytes).Yields value rest) :
    value.kind = .string ∧ WrittenBack depth value (tagBytes .string ++ bytes) rest := by
  obtain ⟨n, mid, hlt, hn, htail⟩ := Reading.yields_andThen_iff.mp h
  obtain ⟨rfl, hsmall⟩ := eq_of_yields_takeNat hn
  obtain ⟨text, mid', hlt', htext, hvalue⟩ := Reading.yields_andThen_iff.mp htail
  obtain ⟨rfl, hlen⟩ := eq_of_yields_take htext
  split at hvalue
  next s hs =>
    obtain ⟨rfl, rfl⟩ := Reading.yields_keep_iff.mp hvalue
    have hbytes := toList_toUTF8_of_fromUTF8? hs
    have hcount : s.utf8ByteSize = n := by
      rw [← hlen, ← hbytes, toList_eq_data]
      exact Array.length_toList.symm
    have hsize : Nat.pow 256 4 = UInt32.size := by decide
    have hpayload : payload depth (.string s) = .ok (littleEndian 4 n ++ text) := by
      rw [payload, hcount, lengthBytes_of_lt (hsize ▸ hsmall), hbytes]
      rfl
    have hmask : (Value.string s).booleanMask =
        List.replicate (4 + (littleEndian 4 n ++ text).length) false := by
      rw [Value.booleanMask, hcount, List.length_append, length_littleEndian, hlen, ← Nat.add_assoc]
    have hwritten := writtenBack_of_payload _ mid' hpayload hmask
    rw [List.append_assoc] at hwritten
    exact ⟨rfl, hwritten⟩
  next => exact absurd hvalue Reading.yields_error_iff

/-! ### Values -/

/-- What is read of a list is written back item by item. -/
def ItemsWrittenBack (depth count : Nat) (items : List Value) (bytes rest : Bytes) : Prop :=
  items.length = count ∧ ∃ used written, bytes = used ++ rest ∧
    payloads depth items = .ok written ∧ Canonical (Value.booleanMaskOfItems items) used written

theorem writtenBack_list {items : List Value} (hdepth : ¬ maxDepth ≤ depth)
    (hsmall : n < Nat.pow 256 4) (h : ItemsWrittenBack (depth + 1) n items bytes rest) :
    WrittenBack depth (.list items) (tagBytes .list ++ (littleEndian 4 n ++ bytes)) rest := by
  obtain ⟨hlen, used, written, rfl, hpayloads, hcanonical⟩ := h
  have hsize : Nat.pow 256 4 = UInt32.size := by decide
  let header := tagBytes .list ++ littleEndian 4 n
  have hheader : Canonical (List.replicate 8 false) header header := by
    apply canonical_replicate
    rw [List.length_append, tagBytes, length_littleEndian, length_littleEndian]
  refine ⟨header ++ used, littleEndian 4 n ++ written, ?_, ?_, ?_⟩
  · simp only [header, List.append_assoc]
  · rw [payload, if_neg hdepth, hlen, lengthBytes_of_lt (hsize ▸ hsmall), hpayloads]
    rfl
  · have happend := hheader.append hcanonical
    rwa [List.append_assoc] at happend

mutual

theorem writtenBack_takeValue (depth : Nat) (bytes : Bytes) {value : Value} {rest : Bytes}
    (h : (takeValue size depth bytes).Yields value rest) :
    WrittenBack depth value bytes rest := by
  rw [takeValue] at h
  obtain ⟨kind, mid, hlt, hkind, h⟩ := Reading.yields_andThen_iff.mp h
  have hbytes := eq_of_yields_takeKind hkind
  rw [hbytes]
  cases kind with
  | boolean =>
    obtain ⟨n, hn, rfl⟩ := Reading.yields_map_iff.mp h
    exact writtenBack_boolean hn
  | integer =>
    obtain ⟨n, hn, rfl⟩ := Reading.yields_map_iff.mp h
    exact writtenBack_integer hn
  | object =>
    obtain ⟨n, hn, rfl⟩ := Reading.yields_map_iff.mp h
    exact writtenBack_object hn
  | float => exact (writtenBack_float h).2
  | character => exact (writtenBack_character h).2
  | string => exact (writtenBack_string h).2
  | list =>
    dsimp only at h
    split at h
    next => exact absurd h Reading.yields_error_iff
    next hdepth =>
      obtain ⟨count, mid', hlt', hcount, h⟩ := Reading.yields_andThen_iff.mp h
      obtain ⟨items, hitems, rfl⟩ := Reading.yields_map_iff.mp h
      have hitems' := writtenBack_takeValues (depth + 1) count mid' hitems
      obtain ⟨hmid, hsmall⟩ := eq_of_yields_takeNat hcount
      rw [hmid]
      exact writtenBack_list hdepth hsmall hitems'
  | none | returned | error => exact absurd h Reading.yields_error_iff
termination_by 2 * bytes.length
decreasing_by all_goals omega

theorem writtenBack_takeValues (depth count : Nat) (bytes : Bytes) {items : List Value}
    {rest : Bytes}
    (h : (takeValues size depth count bytes).Yields items rest) :
    ItemsWrittenBack depth count items bytes rest := by
  cases count with
  | zero =>
    rw [takeValues] at h
    obtain ⟨rfl, rfl⟩ := Reading.yields_keep_iff.mp h
    exact ⟨rfl, [], [], rfl, rfl, canonical_nil⟩
  | succ count =>
    rw [takeValues] at h
    obtain ⟨value, mid, hlt, hvalue, h⟩ :=
      Reading.yields_andThen_iff.mp (Reading.yields_widen_iff.mp h)
    obtain ⟨items, hitems, rfl⟩ := Reading.yields_map_iff.mp h
    obtain ⟨used, written, rfl, hpayload, hcanonical⟩ := writtenBack_takeValue depth bytes hvalue
    obtain ⟨hlen, used', written', rfl, hpayloads, hcanonical'⟩ :=
      writtenBack_takeValues depth count mid hitems
    refine ⟨by rw [List.length_cons, hlen], used ++ used', _, (List.append_assoc _ _ _).symm, ?_,
      hcanonical.append hcanonical'⟩
    rw [payloads, hpayload, hpayloads]
    rfl
termination_by 2 * bytes.length + 1
decreasing_by all_goals omega

end

theorem Canonical.getElem? {written : Bytes} (h : Canonical mask used written) {i : Nat} {b : UInt8}
    (hb : used[i]? = some b) :
    written[i]? = some (if mask[i]? = some true then (if b = 0 then 0 else 1) else b) := by
  obtain ⟨hlen, rfl⟩ := h
  obtain ⟨hi, rfl⟩ := List.getElem?_eq_some_iff.mp hb
  have hmask : mask[i]? = some mask[i] := List.getElem?_eq_getElem (hlen ▸ hi)
  rw [List.getElem?_zipWith, hmask, hb]
  cases hm : mask[i] <;> simp [canonicalByte]

end Encoding

namespace Value

variable {bytes : Encoding.Bytes} {value : Value}

theorem yields_of_decode (h : decode bytes = .ok value) :
    (Encoding.takeValue bytes.length 0 bytes).Yields value [] := by
  unfold decode at h
  cases htake : Encoding.takeValue bytes.length 0 bytes with
  | error e =>
    rw [htake] at h
    cases h
  | ok p =>
    obtain ⟨found, rest, hlt⟩ := p
    rw [htake] at h
    cases rest with
    | nil =>
      cases h
      exact ⟨hlt, rfl⟩
    | cons b rest => cases h

theorem exists_canonical_of_decode (h : decode bytes = .ok value) :
    ∃ bytes', value.encode = .ok bytes' ∧ Encoding.Canonical value.booleanMask bytes bytes' := by
  obtain ⟨used, written, hbytes, hpayload, hcanonical⟩ :=
    Encoding.writtenBack_takeValue 0 bytes (yields_of_decode h)
  rw [List.append_nil] at hbytes
  subst hbytes
  refine ⟨_, ?_, hcanonical⟩
  rw [encode, hpayload]
  rfl

/-- What can be decoded can be encoded, in as many bytes. They are the same bytes, except that true
is written as 1 whatever byte it was read from, and they decode to the same value. -/
theorem encode_of_decode (bytes : Encoding.Bytes) (value : Value) (h : decode bytes = .ok value) :
    ∃ bytes', value.encode = .ok bytes' ∧ bytes'.length = bytes.length ∧
      decode bytes' = .ok value ∧
      (∀ (i : Nat) (b : UInt8), bytes[i]? = some b → bytes'[i]? =
        some (if value.booleanMask[i]? = some true then (if b = 0 then 0 else 1) else b)) ∧
      ((∀ (i : Nat) (b : UInt8), value.booleanMask[i]? = some true → bytes[i]? = some b →
        b = 0 ∨ b = 1) → bytes' = bytes) := by
  obtain ⟨bytes', hencode, hcanonical⟩ := exists_canonical_of_decode h
  have hlength : bytes'.length = bytes.length := by
    rw [hcanonical.written_eq, List.length_zipWith, hcanonical.length_mask, Nat.min_self]
  refine ⟨bytes', hencode, hlength, decode_of_encode hencode, fun i b => hcanonical.getElem?, ?_⟩
  intro hbooleans
  apply List.ext_getElem?
  intro i
  cases hb : bytes[i]? with
  | none =>
    rw [List.getElem?_eq_none_iff, hlength]
    exact List.getElem?_eq_none_iff.mp hb
  | some b =>
    rw [hcanonical.getElem? hb]
    by_cases hmask : value.booleanMask[i]? = some true
    · rcases hbooleans i b hmask hb with rfl | rfl <;> simp [hmask]
    · rw [if_neg hmask]

/-- A boolean read from a 7, beside a string of two bytes. -/
theorem encode_of_decode_seven :
    let bytes : Encoding.Bytes := [8, 0, 0, 0, 2, 0, 0, 0, 2, 0, 0, 0, 7, 6, 0, 0, 0, 2, 0, 0, 0,
      195, 169]
    let value : Value := .list [.boolean true, .string "é"]
    decode bytes = .ok value ∧ value.encode = .ok (bytes.set 12 1) ∧
      decode (bytes.set 12 1) = .ok value := by
  intro bytes value
  have h : decode bytes = .ok value := by cbv
  have hencode : value.encode = .ok (bytes.set 12 1) := by cbv
  obtain ⟨bytes', hencode', _, hdecode, _⟩ := encode_of_decode bytes value h
  obtain rfl : bytes.set 12 1 = bytes' := Except.ok.inj (hencode.symm.trans hencode')
  exact ⟨h, hencode, hdecode⟩

end Value
end MooScript
