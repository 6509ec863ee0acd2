import Mathlib
import MooScript.Proofs.Binary64.Magnitude
import MooScript.Proofs.Reading
import MooScript.Encoding.Reader
import MooScript.Value.Operation

/-! Clean values: without return wrappers, and without floats that are infinite or not a number.
Every operation on values keeps to them, as does the decoder whatever bytes it is given. -/
namespace MooScript

namespace Value

mutual

/-- Whether no node of a value is a return or an infinite float or NaN. -/
def isClean : Value → Bool
  | float x => Binary64.isFinite x
  | list items => areClean items
  | returned _ => false
  | _ => true

def areClean : List Value → Bool
  | [] => true
  | value :: items => value.isClean && areClean items

end

def Clean (value : Value) : Prop := value.isClean = true

variable {a b value : Value} {items : List Value}

theorem clean_list : (list items).Clean ↔ ∀ item ∈ items, item.Clean := by
  rw [Clean, isClean]
  induction items with
  | nil => exact ⟨fun _ => List.forall_mem_nil _, fun _ => rfl⟩
  | cons item items ih => rw [areClean, Bool.and_eq_true, ih, List.forall_mem_cons, Clean]

theorem clean_boolean (b : Bool) : (boolean b).Clean := rfl

theorem clean_integer (n : Int64) : (integer n).Clean := rfl

theorem clean_character (c : Char) : (character c).Clean := rfl

theorem clean_string (s : String) : (string s).Clean := rfl

theorem clean_object (id : ObjectId) : (object id).Clean := rfl

theorem clean_error (code : ErrorCode) : (error code).Clean := rfl

theorem clean_ofFloat (x : Float) : (ofFloat x).Clean := by
  unfold ofFloat
  split
  next h => exact h
  next => exact clean_error .float

theorem clean_getD {found : Option Value} {code : ErrorCode}
    (h : ∀ value, found = some value → value.Clean) : (found.getD (error code)).Clean := by
  cases found with
  | none => exact clean_error code
  | some value => exact h value rfl

theorem clean_getD_map {α : Type} {found : Option α} {f : α → Value} {code : ErrorCode}
    (h : ∀ a, found = some a → (f a).Clean) : ((found.map f).getD (error code)).Clean := by
  refine clean_getD fun value hvalue => ?_
  obtain ⟨a, ha, rfl⟩ := Option.map_eq_some_iff.mp hvalue
  exact h a ha

end Value

open Value

namespace Number

theorem clean_combine (onInt : Int64 → Int64 → Int64) (onFloat : Float → Float → Float)
    (x y : Number) : (combine onInt onFloat x y).Clean := by
  unfold combine
  split
  next a b => exact clean_integer (onInt a b)
  next => exact clean_ofFloat _

theorem clean_div (x y : Number) : (div x y).Clean := by
  unfold div
  split
  next => exact clean_error .div
  next => exact clean_combine _ _ x y

theorem clean_rem (x y : Number) : (rem x y).Clean := by
  unfold rem
  split
  next => exact clean_error .div
  next => exact clean_combine _ _ x y

theorem clean_neg {value : Value} {x : Number} (h : value.Clean) (hx : value.number? = some x) :
    x.neg.Clean := by
  cases value with
  | integer n =>
    cases hx
    exact clean_integer (-n)
  | float x =>
    cases hx
    exact Binary64.isFinite_negate h
  | _ => cases hx

end Number

namespace Ordinal

theorem clean_ofCodePoint? {n : Int} {value : Value} (h : ofCodePoint? n = some value) :
    value.Clean := by
  unfold ofCodePoint? at h
  split at h
  next =>
    cases h
    exact clean_character _
  next => cases h

theorem clean_valueAt? {kind : ValueKind} {n : Int} {value : Value}
    (h : valueAt? kind n = some value) : value.Clean := by
  unfold valueAt? at h
  split at h
  next =>
    split at h
    next => cases h; exact clean_boolean false
    next =>
      split at h
      next => cases h; exact clean_boolean true
      next => cases h
  next => exact clean_ofCodePoint? h
  next =>
    obtain ⟨n, _, rfl⟩ := Option.map_eq_some_iff.mp h
    exact clean_integer n
  next =>
    obtain ⟨id, _, rfl⟩ := Option.map_eq_some_iff.mp h
    exact clean_object id
  next => cases h

theorem clean_pick (keepsFirst : Ordering → Bool) (a b : Ordinal) :
    (pick keepsFirst a b).Clean := by
  unfold pick
  split
  next => exact clean_error .type
  next => exact clean_getD fun _ => clean_valueAt?

theorem clean_succ (a : Ordinal) : a.succ.Clean := by
  cases a with
  | boolean b => exact clean_boolean (!b)
  | integer n => exact clean_integer (n + 1)
  | character | object => exact clean_getD fun _ => clean_valueAt?

theorem clean_pred (a : Ordinal) : a.pred.Clean := by
  cases a with
  | boolean b => exact clean_boolean (!b)
  | integer n => exact clean_integer (n - 1)
  | character | object => exact clean_getD fun _ => clean_valueAt?

theorem clean_chr (a : Ordinal) : a.chr.Clean := clean_getD fun _ => clean_ofCodePoint?

theorem clean_range (a b : Value) (limit : Nat) : (range a b limit).Clean := by
  unfold range
  split
  next lo hi _ _ =>
    split
    next => exact clean_error .type
    next =>
      dsimp only
      split
      next => exact clean_error .quota
      next =>
        refine clean_list.mpr fun item hitem => ?_
        obtain ⟨i, _, hvalue⟩ := List.mem_filterMap.mp hitem
        exact clean_valueAt? hvalue
  next => exact clean_error .type

end Ordinal

namespace Aggregate

variable {a : Aggregate} {value : Value}

theorem clean_items (h : value.Clean) (ha : value.aggregate? = some a) :
    ∀ item ∈ a.items, item.Clean := by
  cases value with
  | list items =>
    cases ha
    exact clean_list.mp h
  | string s =>
    cases ha
    intro item hitem
    obtain ⟨c, _, rfl⟩ := List.mem_map.mp hitem
    exact clean_character c
  | _ => cases ha

theorem at_eq (a : Aggregate) (index : Nat) :
    a.at_ index = a.items[index]?.getD (.error .range) := by
  cases a with
  | list items => rfl
  | string s => rw [items, List.getElem?_map, at_]

theorem clean_at_ (h : ∀ item ∈ a.items, item.Clean) (index : Nat) : (a.at_ index).Clean := by
  rw [at_eq]
  exact clean_getD fun item hitem => h item (List.mem_of_getElem? hitem)

theorem clean_slice (h : ∀ item ∈ a.items, item.Clean) (start stop : Nat) :
    (a.slice start stop).Clean := by
  unfold slice
  split
  next => exact clean_error .range
  next =>
    cases a with
    | list items =>
      exact clean_list.mpr fun item hitem =>
        h item (List.mem_of_mem_drop (List.mem_of_mem_take hitem))
    | string s => exact clean_string _

theorem clean_rest (h : ∀ item ∈ a.items, item.Clean) : a.rest.Clean := by
  unfold rest
  split
  next => exact clean_error .range
  next => exact clean_slice h 1 a.length

end Aggregate

namespace Value

variable {a b value : Value}

theorem clean_arithmetic {op : Number → Number → Value} (h : ∀ x y, (op x y).Clean)
    (a b : Value) : (arithmetic op a b).Clean := by
  unfold arithmetic
  split
  next x y _ _ => exact h x y
  next => exact clean_error .type

theorem clean_add (ha : a.Clean) (hb : b.Clean) : (add a b).Clean := by
  unfold add
  split
  next => exact clean_string _
  next => exact clean_list.mpr (List.forall_mem_append.mpr ⟨clean_list.mp ha, clean_list.mp hb⟩)
  next => exact clean_arithmetic (Number.clean_combine _ _) _ _

theorem clean_min (a b : Value) : (a.min b).Clean := by
  unfold Value.min
  split
  next x y _ _ => exact Number.clean_combine _ _ x y
  next x y _ _ _ => exact Ordinal.clean_pick _ x y
  next =>
    split
    next => exact clean_string _
    next => exact clean_error .type

theorem clean_max (a b : Value) : (a.max b).Clean := by
  unfold Value.max
  split
  next x y _ _ => exact Number.clean_combine _ _ x y
  next x y _ _ _ => exact Ordinal.clean_pick _ x y
  next =>
    split
    next => exact clean_string _
    next => exact clean_error .type

theorem clean_ordered (holds : Ordering → Bool) (a b : Value) : (ordered holds a b).Clean := by
  unfold ordered
  split
  next o _ => exact clean_boolean (holds o)
  next => exact clean_error .type

theorem clean_applyBinary (op : BinaryOp) (ha : a.Clean) (hb : b.Clean) :
    (a.applyBinary op b).Clean := by
  cases op with
  | assign => exact clean_error .type
  | or | xor | and | eq | ne => exact clean_boolean _
  | lt | le | gt | ge => exact clean_ordered _ a b
  | add => exact clean_add ha hb
  | sub | mul => exact clean_arithmetic (Number.clean_combine _ _) a b
  | div => exact clean_arithmetic Number.clean_div a b
  | rem => exact clean_arithmetic Number.clean_rem a b

theorem clean_applyUnary (op : UnaryOp) (h : value.Clean) : (value.applyUnary op).Clean := by
  cases op with
  | not => exact clean_boolean _
  | neg =>
    unfold applyUnary
    dsimp only
    split
    next x hx => exact Number.clean_neg h hx
    next => exact clean_error .type

end Value

namespace Encoding

variable {size n : Nat} {bytes : Bytes}

/-- A reading of which only the value matters, if there is one. -/
theorem ensures_of_forall {α : Type} {Q : α → Bytes → Prop} {r : Reading DecodeError UInt8 α n}
    (h : ∀ a rest, Q a rest) : r.Ensures Q fun _ => True := by
  cases r with
  | error e => exact trivial
  | ok p => exact h p.value p.rest

theorem takeFloat_ensures (size : Nat) (bytes : Bytes) :
    (takeFloat size bytes).Ensures (fun value _ => value.Clean) fun _ => True := by
  refine Reading.Ensures.andThen (ensures_of_forall fun _ _ => trivial) fun n rest _ _ => ?_
  cases hbits : Binary64.ofBits? (UInt64.ofNat n) with
  | none => exact Reading.ensures_error trivial
  | some x => exact Reading.ensures_keep (Binary64.toBits_of_ofBits? hbits).2

theorem takeCharacter_ensures (size : Nat) (bytes : Bytes) :
    (takeCharacter size bytes).Ensures (fun value _ => value.Clean) fun _ => True := by
  refine Reading.Ensures.andThen (ensures_of_forall fun _ _ => trivial) fun n rest _ _ => ?_
  split
  next => exact Reading.ensures_keep (clean_character _)
  next => exact Reading.ensures_error trivial

theorem takeString_ensures (size : Nat) (bytes : Bytes) :
    (takeString size bytes).Ensures (fun value _ => value.Clean) fun _ => True := by
  refine Reading.Ensures.andThen (ensures_of_forall fun _ _ => trivial) fun n rest _ _ => ?_
  refine Reading.Ensures.andThen (ensures_of_forall fun _ _ => trivial) fun text rest _ _ => ?_
  split
  next s _ => exact Reading.ensures_keep (clean_string s)
  next => exact Reading.ensures_error trivial

mutual

theorem takeValue_ensures (size depth : Nat) (bytes : Bytes) :
    (takeValue size depth bytes).Ensures (fun value _ => value.Clean) fun _ => True := by
  rw [takeValue]
  refine Reading.Ensures.andThen (ensures_of_forall fun _ _ => trivial) fun kind rest hrest _ => ?_
  cases kind with
  | boolean => exact Reading.Ensures.map (ensures_of_forall fun n _ => clean_boolean (n != 0))
  | integer => exact Reading.Ensures.map (ensures_of_forall fun _ _ => clean_integer _)
  | object => exact Reading.Ensures.map (ensures_of_forall fun _ _ => clean_object _)
  | float => exact takeFloat_ensures size rest
  | character => exact takeCharacter_ensures size rest
  | string => exact takeString_ensures size rest
  | list =>
    dsimp only
    split
    next => exact Reading.ensures_error trivial
    next =>
      refine Reading.Ensures.andThen (ensures_of_forall fun _ _ => trivial)
        fun count rest' hrest' _ => ?_
      have hvalues := takeValues_ensures size (depth + 1) count rest'
      exact Reading.Ensures.map (hvalues.mono fun values _ _ => clean_list.mpr)
  | none | returned | error => exact Reading.ensures_error trivial
termination_by 2 * bytes.length
decreasing_by omega

theorem takeValues_ensures (size depth count : Nat) (bytes : Bytes) :
    (takeValues size depth count bytes).Ensures (fun values _ => ∀ value ∈ values, value.Clean)
      fun _ => True := by
  cases count with
  | zero =>
    rw [takeValues]
    exact Reading.ensures_keep (List.forall_mem_nil _)
  | succ count =>
    rw [takeValues]
    refine Reading.Ensures.widen ((takeValue_ensures size depth bytes).andThen
      fun value rest hrest hvalue => ?_)
    have hvalues := takeValues_ensures size depth count rest
    exact Reading.Ensures.map (hvalues.mono fun values _ _ h =>
      List.forall_mem_cons.mpr ⟨hvalue, h⟩)
termination_by 2 * bytes.length + 1
decreasing_by all_goals omega

end

end Encoding

/-- Whatever bytes are decoded, the value is clean. -/
theorem Value.clean_of_decode {bytes : Encoding.Bytes} {value : Value}
    (h : Value.decode bytes = .ok value) : value.Clean := by
  have hread := Encoding.takeValue_ensures bytes.length 0 bytes
  unfold Value.decode at h
  cases htake : Encoding.takeValue bytes.length 0 bytes with
  | error e =>
    rw [htake] at h
    cases h
  | ok p =>
    rw [htake] at h hread
    change (if p.rest.isEmpty then Except.ok p.value else _) = Except.ok value at h
    split at h
    next =>
      cases h
      exact hread
    next => cases h

end MooScript
