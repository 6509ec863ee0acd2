import Mathlib
import MooScript.Proofs.Encoding.Canonical

/-! What comes of reading bytes when more of them follow: nothing that was read or refused changes,
and only an input that ended too early goes on, behind the place where it ended. So an encoding
tells where it ends, and an error tells what is missing. -/
namespace MooScript

namespace Encoding

variable {α β : Type} {more bytes : Bytes} {size start place n depth : Nat}

/-- On an input of `size` bytes, what is read ends at `place` or behind it, and if bytes are wanted
they are wanted there. -/
def Reaches (size place : Nat) : Except DecodeError (α × Bytes) → Prop
  | .ok (_, rest) => place + rest.length ≤ size
  | .error (.truncated offset _) => place ≤ offset
  | .error _ => True

theorem Reaches.mono {place' : Nat} {o : Except DecodeError (α × Bytes)} (h : Reaches size place o)
    (hplace : place' ≤ place) : Reaches size place' o := by
  cases o with
  | ok p => exact Nat.le_trans (Nat.add_le_add_right hplace _) h
  | error e => cases e with
    | truncated offset needed => exact Nat.le_trans hplace h
    | _ => exact trivial

/-- What comes of a step from `start` on in an input of `size` bytes, and what comes of it with
`more` behind. -/
inductive Extends (more : Bytes) (size start : Nat) {α : Type} :
    Except DecodeError (α × Bytes) → Except DecodeError (α × Bytes) → Prop
  | read (a : α) (rest : Bytes) (h : start + rest.length ≤ size) :
    Extends more size start (.ok (a, rest)) (.ok (a, rest ++ more))
  | refused {e : DecodeError} (h : ∀ offset needed, e ≠ .truncated offset needed) :
    Extends more size start (.error e) (.error e)
  | short {offset needed : Nat} (hstart : start ≤ offset) (hoffset : offset ≤ size)
    (h : more.length < needed) :
    Extends more size start (.error (.truncated offset needed))
      (.error (.truncated offset (needed - more.length)))
  | supplied {offset needed : Nat} (hstart : start ≤ offset) (hoffset : offset ≤ size)
    (hpos : 0 < needed) (h : needed ≤ more.length) {outcome : Except DecodeError (α × Bytes)}
    (hlater : Reaches (size + more.length) (offset + 1) outcome) :
    Extends more size start (.error (.truncated offset needed)) outcome

namespace Extends

variable {o o' : Except DecodeError (α × Bytes)}

theorem reaches (h : Extends more size start o o') : Reaches size start o := by
  cases h with
  | read a rest h => exact h
  | refused h =>
    rename_i e
    cases e with
    | truncated offset needed => exact absurd rfl (h offset needed)
    | _ => exact trivial
  | short hstart hoffset h => exact hstart
  | supplied hstart hoffset hpos h hlater => exact hstart

theorem mono {start' : Nat} (h : Extends more size start o o') (hstart' : start' ≤ start) :
    Extends more size start' o o' := by
  cases h with
  | read a rest h => exact .read a rest (by omega)
  | refused h => exact .refused h
  | short hstart hoffset h => exact .short (by omega) hoffset h
  | supplied hstart hoffset hpos h hlater => exact .supplied (by omega) hoffset hpos h hlater

end Extends

/-- A step takes its input as it comes: the bytes that are there decide all but what is still
missing. -/
def Incremental (step : Nat → Bytes → Except DecodeError (α × Bytes)) : Prop :=
  ∀ more size bytes, bytes.length ≤ size →
    Extends more size (size - bytes.length) (step size bytes)
      (step (size + more.length) (bytes ++ more))

namespace Incremental

variable {step : Nat → Bytes → Except DecodeError (α × Bytes)}
  {next : Nat → α × Bytes → Except DecodeError (β × Bytes)}

theorem reaches (h : Incremental step) (hbytes : bytes.length ≤ size) :
    Reaches size (size - bytes.length) (step size bytes) :=
  (h [] size bytes hbytes).reaches

theorem bind (h : Incremental step)
    (hnext : ∀ a, Incremental fun size bytes => next size (a, bytes)) :
    Incremental fun size bytes => step size bytes >>= fun p => next size p := by
  intro more size bytes hbytes
  have hstep := h more size bytes hbytes
  dsimp only
  generalize step size bytes = o at hstep
  generalize step (size + more.length) (bytes ++ more) = o' at hstep
  cases hstep with
  | read a rest hrest =>
    have hle : rest.length ≤ size := Nat.le_trans (Nat.le_add_left _ _) hrest
    exact (hnext a more size rest hle).mono (by omega)
  | refused h => exact .refused h
  | short hstart hoffset h => exact .short hstart hoffset h
  | supplied hstart hoffset hpos h hlater =>
    rename_i offset needed
    refine .supplied hstart hoffset hpos h ?_
    -- Whatever the missing bytes make of the step, the next one begins behind them.
    cases o' with
    | error e => cases e <;> exact hlater
    | ok p =>
      have hplace : offset + 1 + p.2.length ≤ size + more.length := hlater
      exact ((hnext p.1).reaches (by omega)).mono (by omega)

theorem keep (a : α) : Incremental fun _ bytes => .ok (a, bytes) := by
  intro more size bytes hbytes
  exact .read a bytes (Nat.sub_add_cancel hbytes).le

theorem refuse {e : DecodeError} (h : ∀ offset needed, e ≠ .truncated offset needed) :
    Incremental fun _ _ => (.error e : Except DecodeError (α × Bytes)) :=
  fun _ _ _ _ => .refused h

theorem map (h : Incremental step) (f : α → β) :
    Incremental fun size bytes => (step size bytes).map fun p => (f p.1, p.2) := by
  have hbind : Incremental fun size bytes => step size bytes >>= fun p => .ok (f p.1, p.2) :=
    h.bind fun a => keep (f a)
  have hmap : ∀ o : Except DecodeError (α × Bytes),
      o.map (fun p => (f p.1, p.2)) = o >>= fun p => .ok (f p.1, p.2) := fun o => by
    cases o <;> rfl
  simp only [hmap]
  exact hbind

end Incremental

/-- An input that is too short for the next `n` bytes. -/
theorem extends_truncated {o : Except DecodeError (α × Bytes)} (h : bytes.length < n)
    (ho : (bytes ++ more).length < n → o = .error (.truncated
      (size + more.length - (bytes ++ more).length) (n - (bytes ++ more).length)))
    (hlater : n ≤ (bytes ++ more).length →
      Reaches (size + more.length) (size - bytes.length + n) o) :
    Extends more size (size - bytes.length)
      (.error (.truncated (size - bytes.length) (n - bytes.length))) o := by
  have hoffset : size - bytes.length ≤ size := Nat.sub_le _ _
  rw [List.length_append] at ho hlater
  by_cases hmore : bytes.length + more.length < n
  · rw [ho hmore, Nat.add_sub_add_right, ← Nat.sub_sub]
    exact .short (Nat.le_refl _) hoffset (by omega)
  · exact .supplied (Nat.le_refl _) hoffset (by omega) (by omega)
      ((hlater (by omega)).mono (by omega))

theorem outcome_take_of_le (h : n ≤ bytes.length) :
    (take size n bytes).outcome = .ok (bytes.take n, bytes.drop n) := by
  have hread : (take size n (bytes.take n ++ bytes.drop n)).Yields _ _ :=
    yields_take (List.length_take_of_le h)
  rw [List.take_append_drop] at hread
  exact hread.outcome

theorem outcome_take_of_lt (h : bytes.length < n) :
    (take size n bytes).outcome = .error (.truncated (size - bytes.length) (n - bytes.length)) := by
  have hshort : (bytes.take n).length < n := by
    rw [List.length_take]
    omega
  rw [take, if_pos hshort, Reading.outcome_error]

theorem take_incremental (n : Nat) : Incremental fun size bytes => (take size n bytes).outcome := by
  intro more size bytes hbytes
  dsimp only
  by_cases h : bytes.length < n
  · rw [outcome_take_of_lt h]
    refine extends_truncated h outcome_take_of_lt fun hmore => ?_
    rw [outcome_take_of_le hmore]
    rw [List.length_append] at hmore
    simp only [Reaches, List.length_drop, List.length_append]
    omega
  · have hle : n ≤ bytes.length := Nat.le_of_not_lt h
    rw [outcome_take_of_le hle, outcome_take_of_le (Nat.le_trans hle (by simp)),
      List.take_append_of_le_length hle, List.drop_append_of_le_length hle]
    refine .read _ _ ?_
    rw [List.length_drop]
    omega

theorem takeNat_incremental (n : Nat) :
    Incremental fun size bytes => (takeNat size n bytes).outcome := by
  simp only [takeNat, Reading.outcome_map]
  exact (take_incremental n).map ofLittleEndian

/-- The kind that a tag stands for. -/
def kindOf (tag : Int32) : Except DecodeError ValueKind :=
  match ValueKind.ofTag? tag with
  | some kind => .ok kind
  | none => .error (.unknownTag tag)

theorem kindOf_ne_truncated {tag : Int32} {e : DecodeError} (h : kindOf tag = .error e)
    (offset needed : Nat) : e ≠ .truncated offset needed := by
  unfold kindOf at h
  split at h <;> cases h
  exact DecodeError.noConfusion

/-- A kind tag is a number of four bytes. -/
theorem outcome_takeKind (size : Nat) (bytes : Bytes) :
    (takeKind size bytes).outcome = (takeNat size 4 bytes).outcome >>= fun p =>
      (kindOf (UInt32.ofNat p.1).toInt32).map (·, p.2) := by
  unfold takeKind
  split
  next a b c d rest =>
    have hle : 4 ≤ (a :: b :: c :: d :: rest).length := by simp
    rw [takeNat, Reading.outcome_map, outcome_take_of_le hle]
    simp only [kindOf, Except.map, bind, Except.bind, List.take, List.drop]
    cases ValueKind.ofTag? _ <;> rfl
  next hshort =>
    have hlt : bytes.length < 4 := by
      rcases bytes with _ | ⟨a, _ | ⟨b, _ | ⟨c, _ | ⟨d, rest⟩⟩⟩⟩
      iterate 4 simp
      exact absurd rfl (hshort a b c d rest)
    rw [takeNat, Reading.outcome_map, outcome_take_of_lt hlt]
    rfl

theorem takeKind_incremental : Incremental fun size bytes => (takeKind size bytes).outcome := by
  simp only [outcome_takeKind]
  refine (takeNat_incremental 4).bind fun n => ?_
  dsimp only
  cases h : kindOf (UInt32.ofNat n).toInt32 with
  | error e => exact .refuse (kindOf_ne_truncated h)
  | ok kind => exact .keep kind

theorem takeFloat_incremental : Incremental fun size bytes => (takeFloat size bytes).outcome := by
  simp only [takeFloat, Reading.outcome_andThen]
  refine (takeNat_incremental 8).bind fun n => ?_
  dsimp only
  cases Binary64.ofBits? (UInt64.ofNat n) with
  | none => exact .refuse fun _ _ => DecodeError.noConfusion
  | some x => exact .keep (Value.float x)

theorem takeCharacter_incremental :
    Incremental fun size bytes => (takeCharacter size bytes).outcome := by
  simp only [takeCharacter, Reading.outcome_andThen]
  refine (takeNat_incremental 4).bind fun n => ?_
  by_cases hvalid : n.isValidChar
  · simp only [if_pos hvalid]
    exact .keep (Value.character (Char.ofNat n))
  · simp only [if_neg hvalid]
    exact .refuse fun _ _ => DecodeError.noConfusion

theorem takeString_incremental :
    Incremental fun size bytes => (takeString size bytes).outcome := by
  simp only [takeString, Reading.outcome_andThen]
  refine (takeNat_incremental 4).bind fun n => (take_incremental n).bind fun text => ?_
  dsimp only
  cases String.fromUTF8? (ByteArray.mk text.toArray) with
  | none => exact .refuse fun _ _ => DecodeError.noConfusion
  | some s => exact .keep (Value.string s)

theorem takeValues_incremental
    (h : Incremental fun size bytes => (takeValue size depth bytes).outcome) (count : Nat) :
    Incremental fun size bytes => (takeValues size depth count bytes).outcome := by
  induction count with
  | zero =>
    simp only [takeValues]
    exact .keep []
  | succ count ih =>
    simp only [takeValues, Reading.outcome_widen, Reading.outcome_andThen, Reading.outcome_map]
    exact h.bind fun value => ih.map (value :: ·)

/-- A value is read as its bytes come if the items of a list are. -/
theorem takeValue_incremental_of
    (h : ¬ maxDepth ≤ depth →
      Incremental fun size bytes => (takeValue size (depth + 1) bytes).outcome) :
    Incremental fun size bytes => (takeValue size depth bytes).outcome := by
  simp only [takeValue, Reading.outcome_andThen]
  refine takeKind_incremental.bind fun kind => ?_
  dsimp only
  cases kind with
  | boolean =>
    simp only [Reading.outcome_map]
    exact (takeNat_incremental 1).map fun n => Value.boolean (n != 0)
  | integer =>
    simp only [Reading.outcome_map]
    exact (takeNat_incremental 8).map fun n => Value.integer (UInt64.ofNat n).toInt64
  | object =>
    simp only [Reading.outcome_map]
    exact (takeNat_incremental 4).map fun n => Value.object (UInt32.ofNat n).toInt32
  | float => exact takeFloat_incremental
  | character => exact takeCharacter_incremental
  | string => exact takeString_incremental
  | list =>
    dsimp only
    split
    next => exact .refuse fun _ _ => DecodeError.noConfusion
    next hdepth =>
      simp only [Reading.outcome_andThen, Reading.outcome_map]
      refine (takeNat_incremental 4).bind fun count => ?_
      exact (takeValues_incremental (h hdepth) count).map Value.list
  | none | returned | error => exact .refuse fun _ _ => DecodeError.noConfusion

/-- By induction on how many more lists may be opened. -/
theorem takeValue_incremental (depth : Nat) :
    Incremental fun size bytes => (takeValue size depth bytes).outcome := by
  induction hlevels : maxDepth - depth generalizing depth with
  | zero => exact takeValue_incremental_of fun hdepth => absurd hlevels (by omega)
  | succ levels ih => exact takeValue_incremental_of fun _ => ih (depth + 1) (by omega)

/-- What comes of reading a value at the front of the bytes. -/
def front (bytes : Bytes) : Except DecodeError (Value × Bytes) :=
  (takeValue bytes.length 0 bytes).outcome

theorem front_extends (bytes more : Bytes) :
    Extends more bytes.length 0 (front bytes) (front (bytes ++ more)) := by
  have h := takeValue_incremental 0 more bytes.length bytes (Nat.le_refl _)
  rw [Nat.sub_self, ← List.length_append] at h
  exact h

end Encoding

namespace Value

open Encoding

variable {value : Value} {bytes more : Bytes} {k : Nat}

theorem decode_eq (bytes : Bytes) :
    decode bytes = front bytes >>= fun p =>
      if p.2.isEmpty then .ok p.1 else .error (.trailingBytes p.2.length) := by
  rw [decode, front]
  cases takeValue bytes.length 0 bytes <;> rfl

theorem front_of_encode (h : value.encode = .ok bytes) : front bytes = .ok (value, []) :=
  (yields_of_decode (decode_of_encode h)).outcome

/-- An encoding that is cut off ends too early, and what is missing would be enough to go on. -/
theorem decode_take_of_encode (h : value.encode = .ok bytes) (hk : k < bytes.length) :
    ∃ offset needed, decode (bytes.take k) = .error (.truncated offset needed) ∧
      offset ≤ k ∧ 0 < needed ∧ needed ≤ bytes.length - k := by
  have hkept : (bytes.take k).length = k := List.length_take_of_le (Nat.le_of_lt hk)
  have hmissing : (bytes.drop k).length = bytes.length - k := List.length_drop
  have hextends := front_extends (bytes.take k) (bytes.drop k)
  rw [List.take_append_drop, hkept, front_of_encode h] at hextends
  rw [decode_eq]
  generalize front (bytes.take k) = cut at *
  generalize hwhole : Except.ok (value, ([] : Bytes)) = whole at hextends
  cases hextends with
  | read a rest =>
    -- Had the cut part been read to its end, the missing bytes would be left of the whole.
    have hnil : rest ++ bytes.drop k = [] := (congrArg Prod.snd (Except.ok.inj hwhole)).symm
    rw [(List.append_eq_nil_iff.mp hnil).2, List.length_nil] at hmissing
    omega
  | refused _ => cases hwhole
  | short _ _ _ => cases hwhole
  | supplied _ hoffset hpos hle _ => exact ⟨_, _, rfl, hoffset, hpos, hmissing ▸ hle⟩

theorem decode_append_of_encode (h : value.encode = .ok bytes) (hmore : more ≠ []) :
    decode (bytes ++ more) = .error (.trailingBytes more.length) := by
  have hextends := front_extends bytes more
  rw [front_of_encode h] at hextends
  rw [decode_eq]
  generalize front (bytes ++ more) = whole at *
  cases hextends
  have hleft : more.isEmpty = false := List.isEmpty_eq_false_iff.mpr hmore
  exact if_neg (ne_true_of_eq_false hleft)

/-- An encoding tells where it ends: of any part cut off, that it ended too early and by how much,
of any bytes behind it, how many they are; so none begins with another. -/
theorem encode_delimits_itself (value : Value) (bytes : Bytes) (h : value.encode = .ok bytes) :
    (∀ k < bytes.length, ∃ offset needed,
      decode (bytes.take k) = .error (.truncated offset needed) ∧
        offset ≤ k ∧ 0 < needed ∧ needed ≤ bytes.length - k) ∧
    (∀ more ≠ [], decode (bytes ++ more) = .error (.trailingBytes more.length)) ∧
    ∀ value' bytes', encode value' = .ok bytes' → bytes <+: bytes' → bytes' = bytes := by
  refine ⟨fun k => decode_take_of_encode h, fun more => decode_append_of_encode h, ?_⟩
  rintro value' bytes' h' ⟨more, rfl⟩
  by_cases hmore : more = []
  · rw [hmore, List.append_nil]
  · have hdecode := decode_of_encode h'
    rw [decode_append_of_encode h hmore] at hdecode
    cases hdecode

/-- A list of a text, cut inside its character of two bytes, and with a zero behind it. -/
theorem encode_delimits_itself_text :
    let value : Value := .list [.string "é"]
    let bytes : Bytes := [8, 0, 0, 0, 1, 0, 0, 0, 6, 0, 0, 0, 2, 0, 0, 0, 195, 169]
    value.encode = .ok bytes ∧
      (∃ offset needed, decode (bytes.take 17) = .error (.truncated offset needed) ∧
        offset ≤ 17 ∧ 0 < needed ∧ needed ≤ 1) ∧
      decode (bytes ++ [0]) = .error (.trailingBytes 1) := by
  intro value bytes
  have h : value.encode = .ok bytes := by cbv
  obtain ⟨hcut, hmore, _⟩ := encode_delimits_itself value bytes h
  exact ⟨h, hcut 17 (by decide), hmore [0] (List.cons_ne_nil _ _)⟩

/-! ### What an error says of longer inputs -/

/-- Bytes are refused at the front, or for those that are left over. -/
theorem front_of_decode_error {e : DecodeError} (h : decode bytes = .error e)
    (htrailing : ∀ count, e ≠ .trailingBytes count) : front bytes = .error e := by
  rw [decode_eq] at h
  cases hfront : front bytes with
  | error e' =>
    rw [hfront] at h
    cases h
    rfl
  | ok p =>
    rw [hfront] at h
    change (if p.2.isEmpty then _ else _) = _ at h
    split at h <;> cases h
    exact absurd rfl (htrailing _)

theorem decode_of_front_error {e : DecodeError} (h : front bytes = .error e) :
    decode bytes = .error e := by
  rw [decode_eq, h]
  rfl

/-- Bytes that run out are wanted at a place of the input, and some are; as long as they do not all
come they are wanted there, and once they have come nothing is wanted there any more. -/
theorem decode_append_of_truncated {offset needed : Nat}
    (h : decode bytes = .error (.truncated offset needed)) :
    offset ≤ bytes.length ∧ 1 ≤ needed ∧ ∀ more,
      (more.length < needed →
        decode (bytes ++ more) = .error (.truncated offset (needed - more.length))) ∧
      (needed ≤ more.length → ∀ offset' needed',
        decode (bytes ++ more) = .error (.truncated offset' needed') → offset < offset') := by
  have hfront := front_of_decode_error h fun _ => DecodeError.noConfusion
  have hbounds : offset ≤ bytes.length ∧ 1 ≤ needed := by
    have hextends := front_extends bytes []
    rw [hfront] at hextends
    generalize front (bytes ++ []) = whole at hextends
    cases hextends with
    | refused hne => exact absurd rfl (hne offset needed)
    | short _ hoffset hpos => exact ⟨hoffset, hpos⟩
    | supplied _ hoffset hpos _ _ => exact ⟨hoffset, hpos⟩
  refine ⟨hbounds.1, hbounds.2, fun more => ?_⟩
  have hextends := front_extends bytes more
  rw [hfront] at hextends
  generalize hwhole : front (bytes ++ more) = whole at hextends
  cases hextends with
  | refused hne => exact absurd rfl (hne offset needed)
  | short _ _ hshort =>
    exact ⟨fun _ => decode_of_front_error hwhole, fun hle => absurd hshort (Nat.not_lt.mpr hle)⟩
  | supplied _ _ _ hle hlater =>
    refine ⟨fun hshort => absurd hshort (Nat.not_lt.mpr hle), fun _ offset' needed' h' => ?_⟩
    have hfront' := front_of_decode_error h' fun _ => DecodeError.noConfusion
    rw [← hwhole, hfront'] at hlater
    exact hlater

/-- Bytes that are refused for what they are stay refused. -/
theorem decode_append_of_refused {e : DecodeError} (h : decode bytes = .error e)
    (htruncated : ∀ offset needed, e ≠ .truncated offset needed)
    (htrailing : ∀ count, e ≠ .trailingBytes count) (more : Bytes) :
    decode (bytes ++ more) = .error e := by
  have hextends := front_extends bytes more
  rw [front_of_decode_error h htrailing] at hextends
  generalize hwhole : front (bytes ++ more) = whole at hextends
  cases hextends with
  | refused _ => exact decode_of_front_error hwhole
  | short _ _ _ => exact absurd rfl (htruncated _ _)
  | supplied _ _ _ _ _ => exact absurd rfl (htruncated _ _)

/-- What an error says of the bytes holds of every longer input: where bytes are missing and how
many, or that they begin no value whatever follows. -/
theorem decode_error_exact (bytes : Bytes) :
    (∀ offset needed, decode bytes = .error (.truncated offset needed) →
      offset ≤ bytes.length ∧ 1 ≤ needed ∧ ∀ more,
        (more.length < needed →
          decode (bytes ++ more) = .error (.truncated offset (needed - more.length))) ∧
        (needed ≤ more.length → ∀ offset' needed',
          decode (bytes ++ more) = .error (.truncated offset' needed') → offset < offset')) ∧
    (∀ e, decode bytes = .error e → (∀ offset needed, e ≠ .truncated offset needed) →
      (∀ count, e ≠ .trailingBytes count) → ∀ more, decode (bytes ++ more) = .error e) := by
  refine ⟨fun _ _ => decode_append_of_truncated, fun _ => decode_append_of_refused⟩

/-- A list of two whose second tag is cut off, and one whose second tag is of no kind. -/
theorem decode_error_exact_second :
    let cut : Bytes := [8, 0, 0, 0, 2, 0, 0, 0, 2, 0, 0, 0, 1, 8]
    let odd : Bytes := [8, 0, 0, 0, 2, 0, 0, 0, 2, 0, 0, 0, 1, 42, 0, 0, 0]
    decode cut = .error (.truncated 13 3) ∧
      decode (cut ++ [0, 0]) = .error (.truncated 13 1) ∧
      decode (cut ++ [0, 0, 0, 7]) = .error (.truncated 17 3) ∧ 13 < 17 ∧
      decode odd = .error (.unknownTag 42) ∧
      decode (odd ++ [0, 0, 0, 7]) = .error (.unknownTag 42) := by
  intro cut odd
  have hcut : decode cut = .error (.truncated 13 3) := by cbv
  have hlater : decode (cut ++ [0, 0, 0, 7]) = .error (.truncated 17 3) := by cbv
  have hodd : decode odd = .error (.unknownTag 42) := by cbv
  obtain ⟨_, _, hmore⟩ := (decode_error_exact cut).1 13 3 hcut
  exact ⟨hcut, (hmore [0, 0]).1 (by decide), hlater,
    (hmore [0, 0, 0, 7]).2 (by decide) 17 3 hlater, hodd,
    (decode_error_exact odd).2 _ hodd (fun _ _ => DecodeError.noConfusion)
      (fun _ => DecodeError.noConfusion) [0, 0, 0, 7]⟩

end Value
end MooScript
