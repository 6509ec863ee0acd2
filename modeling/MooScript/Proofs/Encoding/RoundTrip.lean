import Mathlib
import MooScript.Proofs.Encoding.Bytes

/-! Which values have an encoding, what the encoding reads back as, and why the others have none. -/
namespace MooScript

mutual

/-- The nodes of a value in pre-order, each with the number of lists that enclose it. -/
def Value.nodes (depth : Nat) : Value → List (Nat × Value)
  | .list items => (depth, .list items) :: Value.nodesOfItems (depth + 1) items
  | .returned value => (depth, .returned value) :: value.nodes depth
  | value => [(depth, value)]

def Value.nodesOfItems (depth : Nat) : List Value → List (Nat × Value)
  | [] => []
  | value :: items => value.nodes depth ++ Value.nodesOfItems depth items

end

/-- What keeps a node that `depth` lists enclose from being written, whatever it holds. -/
def Value.offence? (depth : Nat) : Value → Option EncodeError
  | .error _ => some (.unsupported .error)
  | .returned _ => some (.unsupported .returned)
  | .float x => if Binary64.isFinite x then none else some (.nonFinite x)
  | .string s => if s.utf8ByteSize < UInt32.size then none else some (.tooLong s.utf8ByteSize)
  | .list items =>
    if Encoding.maxDepth ≤ depth then some .tooDeep
    else if items.length < UInt32.size then none
    else some (.tooLong items.length)
  | _ => none

theorem Value.offence?_float_eq_none {depth : Nat} {x : Float} :
    (Value.float x).offence? depth = none ↔ Binary64.isFinite x = true := by
  by_cases h : Binary64.isFinite x = true <;> simp [Value.offence?, h]

theorem Value.offence?_string_eq_none {depth : Nat} {s : String} :
    (Value.string s).offence? depth = none ↔ s.utf8ByteSize < UInt32.size := by
  by_cases h : s.utf8ByteSize < UInt32.size <;> simp [Value.offence?, h]

theorem Value.offence?_list_eq_none {depth : Nat} {items : List Value} :
    (Value.list items).offence? depth = none ↔
      ¬ Encoding.maxDepth ≤ depth ∧ items.length < UInt32.size := by
  by_cases hd : Encoding.maxDepth ≤ depth
  · simp [Value.offence?, hd]
  · by_cases hl : items.length < UInt32.size <;> simp [Value.offence?, hd, hl]

/-- The offence of the first node that has one. -/
def Value.firstOffence? (nodes : List (Nat × Value)) : Option EncodeError :=
  nodes.findSome? fun node => node.2.offence? node.1

/-- No node is an error or a return, floats are finite, lists are not enclosed in 512 or more, and
strings and lists have lengths of 32 bits. -/
structure Value.Encodable (value : Value) : Prop where
  no_error : ∀ depth code, (depth, .error code) ∉ value.nodes 0
  no_return : ∀ depth inner, (depth, .returned inner) ∉ value.nodes 0
  finite : ∀ depth x, (depth, .float x) ∈ value.nodes 0 → Binary64.isFinite x = true
  shallow : ∀ depth items, (depth, .list items) ∈ value.nodes 0 → depth < 512
  short_string : ∀ depth s, (depth, .string s) ∈ value.nodes 0 → s.utf8ByteSize < UInt32.size
  short_list : ∀ depth items, (depth, .list items) ∈ value.nodes 0 → items.length < UInt32.size

namespace Encoding

variable {size depth : Nat} {bytes : Bytes} {e : EncodeError}

theorem lengthBytes_of_lt {n : Nat} (h : n < UInt32.size) :
    lengthBytes n = .ok (littleEndian 4 n) := if_pos h

theorem lengthBytes_of_not_lt {n : Nat} (h : ¬ n < UInt32.size) :
    lengthBytes n = .error (.tooLong n) := if_neg h

/-- A node's own offence is found before any below it. -/
theorem payload_of_offence {value : Value} (h : value.offence? depth = some e) :
    payload depth value = .error e := by
  cases value with
  | error code => exact congrArg Except.error (Option.some.inj h)
  | returned inner => exact congrArg Except.error (Option.some.inj h)
  | float x =>
    by_cases hx : Binary64.isFinite x = true
    · simp [Value.offence?, hx] at h
    · rw [payload, if_neg hx]
      exact congrArg Except.error (by simpa [Value.offence?, hx] using h)
  | string s =>
    by_cases hs : s.utf8ByteSize < UInt32.size
    · simp [Value.offence?, hs] at h
    · rw [payload, lengthBytes_of_not_lt hs]
      exact congrArg Except.error (by simpa [Value.offence?, hs] using h)
  | list items =>
    by_cases hd : maxDepth ≤ depth
    · rw [payload, if_pos hd]
      exact congrArg Except.error (by simpa [Value.offence?, hd] using h)
    · by_cases hl : items.length < UInt32.size
      · simp [Value.offence?, hd, hl] at h
      · rw [payload, if_neg hd, lengthBytes_of_not_lt hl]
        exact congrArg Except.error (by simpa [Value.offence?, hd, hl] using h)
  | boolean b => cases h
  | integer n => cases h
  | character c => cases h
  | object id => cases h

theorem ne_error_iff {r : Except EncodeError Bytes} :
    (∀ e, r ≠ .error e) ↔ ∃ bytes, r = .ok bytes := by
  cases r with
  | error e => simp
  | ok bytes => simp

theorem payloads_cons_eq_error {value : Value} {items : List Value} :
    payloads depth (value :: items) = .error e ↔ payload depth value = .error e ∨
      (∃ bytes, payload depth value = .ok bytes) ∧ payloads depth items = .error e := by
  rw [payloads]
  cases hv : payload depth value with
  | error e' => simp [bind, Except.bind]
  | ok first =>
    cases hi : payloads depth items with
    | error e' => simp [bind, Except.bind]
    | ok bytes => simp [bind, Except.bind, pure, Except.pure]

mutual

theorem payload_eq_error_iff (value : Value) (depth : Nat) (e : EncodeError) :
    payload depth value = .error e ↔ Value.firstOffence? (value.nodes depth) = some e := by
  cases ho : value.offence? depth with
  | some found =>
    have hnodes : ∃ below, value.nodes depth = (depth, value) :: below := by
      cases value <;> exact ⟨_, rfl⟩
    obtain ⟨below, hnodes⟩ := hnodes
    rw [payload_of_offence ho, hnodes, Value.firstOffence?, List.findSome?_cons, ho]
    simp
  | none =>
    cases value with
    | list items =>
      obtain ⟨hd, hl⟩ := Value.offence?_list_eq_none.mp ho
      rw [Value.nodes, Value.firstOffence?, List.findSome?_cons, ho, payload, if_neg hd,
        lengthBytes_of_lt hl]
      refine Iff.trans ?_ (payloads_eq_error_iff items (depth + 1) e)
      cases payloads (depth + 1) items <;> simp [bind, Except.bind, pure, Except.pure]
    | returned inner => cases ho
    | error code => cases ho
    | float x =>
      have hx := Value.offence?_float_eq_none.mp ho
      simp [payload, Value.nodes, Value.firstOffence?, ho, hx]
    | string s =>
      have hs := Value.offence?_string_eq_none.mp ho
      simp [payload, Value.nodes, Value.firstOffence?, ho, lengthBytes_of_lt hs, bind, Except.bind,
        pure, Except.pure]
    | boolean b => simp [payload, Value.nodes, Value.firstOffence?, ho]
    | integer n => simp [payload, Value.nodes, Value.firstOffence?, ho]
    | character c => simp [payload, Value.nodes, Value.firstOffence?, ho]
    | object id => simp [payload, Value.nodes, Value.firstOffence?, ho]

theorem payloads_eq_error_iff (items : List Value) (depth : Nat) (e : EncodeError) :
    payloads depth items = .error e ↔
      Value.firstOffence? (Value.nodesOfItems depth items) = some e := by
  cases items with
  | nil => simp [payloads, Value.nodesOfItems, Value.firstOffence?]
  | cons value items =>
    -- The items behind it are written only when the first one could be.
    have hnone : Value.firstOffence? (value.nodes depth) = none ↔
        ∃ bytes, payload depth value = .ok bytes := by
      rw [← ne_error_iff, Option.eq_none_iff_forall_ne_some]
      exact forall_congr' fun e => not_congr (payload_eq_error_iff value depth e).symm
    rw [payloads_cons_eq_error, payload_eq_error_iff value, payloads_eq_error_iff items, ← hnone,
      Value.nodesOfItems, ← Option.or_eq_some_iff, Value.firstOffence?, Value.firstOffence?,
      Value.firstOffence?, List.findSome?_append]

end

mutual

theorem yields_takeValue (value : Value) (depth : Nat) {bytes rest : Bytes}
    (h : payload depth value = .ok bytes) :
    (takeValue size depth (tagBytes value.kind ++ (bytes ++ rest))).Yields value rest := by
  rw [takeValue]
  apply (yields_takeKind value.kind).andThen
  cases value with
  | boolean b =>
    cases h
    cases b <;> exact ⟨_, rfl⟩
  | integer n =>
    cases h
    have hlt : n.toUInt64.toNat < Nat.pow 256 8 := n.toUInt64.toNat_lt
    exact Reading.yields_map_iff.mpr ⟨_, yields_takeNat hlt, by simp⟩
  | object id =>
    cases h
    have hlt : id.toUInt32.toNat < Nat.pow 256 4 := id.toUInt32.toNat_lt
    exact Reading.yields_map_iff.mpr ⟨_, yields_takeNat hlt, by simp⟩
  | character c =>
    cases h
    exact yields_takeCharacter c
  | float x =>
    by_cases hx : Binary64.isFinite x = true
    · rw [payload, if_pos hx] at h
      cases h
      exact yields_takeFloat hx
    · rw [payload, if_neg hx] at h
      cases h
  | string s =>
    rw [payload] at h
    by_cases hs : s.utf8ByteSize < UInt32.size
    · rw [lengthBytes_of_lt hs] at h
      cases h
      rw [List.append_assoc]
      exact yields_takeString hs
    · rw [lengthBytes_of_not_lt hs] at h
      cases h
  | list items =>
    rw [payload] at h
    by_cases hd : maxDepth ≤ depth
    · rw [if_pos hd] at h
      cases h
    · rw [if_neg hd] at h
      by_cases hl : items.length < UInt32.size
      · rw [lengthBytes_of_lt hl] at h
        cases hp : payloads (depth + 1) items with
        | error e =>
          rw [hp] at h
          cases h
        | ok written =>
          rw [hp] at h
          cases h
          simp only [Value.kind, if_neg hd]
          rw [List.append_assoc]
          apply (yields_takeNat (k := 4) hl).andThen
          exact (yields_takeValues items (depth + 1) hp).map Value.list
      · rw [lengthBytes_of_not_lt hl] at h
        cases h
  | error code => cases h
  | returned inner => cases h

theorem yields_takeValues (items : List Value) (depth : Nat) {bytes rest : Bytes}
    (h : payloads depth items = .ok bytes) :
    (takeValues size depth items.length (bytes ++ rest)).Yields items rest := by
  cases items with
  | nil =>
    cases h
    rw [List.length_nil, takeValues]
    exact Reading.yields_keep
  | cons value items =>
    rw [payloads] at h
    cases hv : payload depth value with
    | error e =>
      rw [hv] at h
      cases h
    | ok first =>
      cases hi : payloads depth items with
      | error e =>
        rw [hv, hi] at h
        cases h
      | ok written =>
        rw [hv, hi] at h
        cases h
        rw [List.length_cons, takeValues]
        rw [List.append_assoc, List.append_assoc]
        apply Reading.Yields.widen
        apply (yields_takeValue value depth hv).andThen
        exact (yields_takeValues items depth hi).map (value :: ·)

end

end Encoding

namespace Value

theorem encodable_iff {value : Value} :
    value.Encodable ↔ firstOffence? (value.nodes 0) = none := by
  rw [firstOffence?, List.findSome?_eq_none_iff]
  constructor
  · rintro h ⟨depth, node⟩ hmem
    cases node with
    | error code => exact absurd hmem (h.no_error depth code)
    | returned inner => exact absurd hmem (h.no_return depth inner)
    | float x => exact offence?_float_eq_none.mpr (h.finite depth x hmem)
    | string s => exact offence?_string_eq_none.mpr (h.short_string depth s hmem)
    | list items =>
      have hd := h.shallow depth items hmem
      exact offence?_list_eq_none.mpr ⟨Nat.not_le.mpr hd, h.short_list depth items hmem⟩
    | boolean b => rfl
    | integer n => rfl
    | character c => rfl
    | object id => rfl
  · intro h
    constructor
    · intro depth code hmem
      cases h _ hmem
    · intro depth inner hmem
      cases h _ hmem
    · intro depth x hmem
      exact offence?_float_eq_none.mp (h _ hmem)
    · intro depth items hmem
      exact Nat.not_le.mp (offence?_list_eq_none.mp (h _ hmem)).1
    · intro depth s hmem
      exact offence?_string_eq_none.mp (h _ hmem)
    · intro depth items hmem
      exact (offence?_list_eq_none.mp (h _ hmem)).2

theorem encode_eq_error_iff {value : Value} {e : EncodeError} :
    value.encode = .error e ↔ firstOffence? (value.nodes 0) = some e := by
  rw [← Encoding.payload_eq_error_iff, encode]
  cases Encoding.payload 0 value <;> simp [bind, Except.bind, pure, Except.pure]

theorem decode_of_encode {value : Value} {bytes : Encoding.Bytes} (h : value.encode = .ok bytes) :
    decode bytes = .ok value := by
  rw [encode] at h
  cases hp : Encoding.payload 0 value with
  | error e =>
    rw [hp] at h
    cases h
  | ok written =>
    rw [hp] at h
    cases h
    let size := (Encoding.tagBytes value.kind ++ written).length
    have hread : (Encoding.takeValue size 0
        ((Encoding.tagBytes value.kind ++ written) ++ [])).Yields value [] :=
      Encoding.yields_takeValue value 0 hp
    rw [List.append_nil] at hread
    obtain ⟨_, hread⟩ := hread
    rw [decode, hread]
    rfl

/-- The values that can be written are the encodable ones, each reads back as it was (equal floats
have equal bits), and of the others it is the first offence that is reported. -/
theorem encode_exact_and_lossless (value : Value) :
    ((∃ bytes, value.encode = .ok bytes) ↔ value.Encodable) ∧
      (∀ bytes, value.encode = .ok bytes → decode bytes = .ok value) ∧
      ∀ e, value.encode = .error e ↔ firstOffence? (value.nodes 0) = some e := by
  refine ⟨?_, fun _ => decode_of_encode, fun _ => encode_eq_error_iff⟩
  rw [encodable_iff, ← Encoding.ne_error_iff, Option.eq_none_iff_forall_ne_some]
  exact forall_congr' fun e => not_congr encode_eq_error_iff

/-- A list that holds a negative zero and an empty list. -/
theorem decode_encode_negative_zero :
    let value : Value := .list [.float (Float.ofBits 0x8000000000000000), .list []]
    let bytes : Encoding.Bytes := [8, 0, 0, 0, 2, 0, 0, 0, 5, 0, 0, 0, 0, 0, 0, 0, 0, 0, 0, 128,
      8, 0, 0, 0, 0, 0, 0, 0]
    value.encode = .ok bytes ∧ decode bytes = .ok value := by
  intro value bytes
  have h : value.encode = .ok bytes := by cbv
  exact ⟨h, (encode_exact_and_lossless value).2.1 bytes h⟩

end Value
end MooScript
