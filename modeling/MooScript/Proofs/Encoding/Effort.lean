import Mathlib
import MooScript.Proofs.Encoding.Extension
import MooScript.Proofs.Walk

/-! What it takes to decode: a reader that walks through the bytes, with a place and a depth of its
own that it moves as it goes. It comes to what `Value.decode` does; how often and how deeply it
calls itself is bounded by the bytes there are, whatever counts stand in them. -/
namespace MooScript

namespace Encoding

/-- Where in its input a reader stands, and how many lists it has open. -/
structure Reader where
  offset : Nat
  depth : Nat

/-- What a reader does. -/
inductive Act
  | enter
  /-- A value has been read; `entry` lists were open when it began. -/
  | leave (entry : Nat)
  | take (count : Nat)

namespace Act

def isEnter : Act → Bool
  | enter => true
  | _ => false

def isLeave : Act → Bool
  | leave _ => true
  | _ => false

end Act

abbrev Readers (α : Type) := Walk DecodeError Reader Act α

/-- How many values have been begun. -/
def begun (journal : List (Reader × Act)) : Nat := journal.countP (·.2.isEnter)

/-- How many values have been read to their end. -/
def ended (journal : List (Reader × Act)) : Nat := journal.countP (·.2.isLeave)

section

variable (input : Bytes)

/-- The bytes from one offset up to another. -/
def slice (start stop : Nat) : Readers Bytes :=
  if start ≤ stop ∧ stop ≤ input.length then pure ((input.drop start).take (stop - start))
  else Walk.halt .outOfRange

def readBytes (count : Nat) : Readers Bytes := do
  Walk.note (.take count)
  let r ← Walk.state
  let available ← Walk.difference input.length r.offset
  if available < count then Walk.refuse (.truncated r.offset (count - available))
  else do
    let bytes ← slice input r.offset (r.offset + count)
    Walk.move { r with offset := r.offset + count }
    return bytes

def readNat (count : Nat) : Readers Nat := do
  let bytes ← readBytes input count
  return ofLittleEndian bytes

def readKind : Readers ValueKind := do
  let n ← readNat input 4
  Walk.lift (kindOf (UInt32.ofNat n).toInt32)

def readFloat : Readers Value := do
  let n ← readNat input 8
  match Binary64.ofBits? (UInt64.ofNat n) with
  | some x => return .float x
  | none => Walk.refuse (.nonFinite (Float.ofBits (UInt64.ofNat n)))

def readCharacter : Readers Value := do
  let n ← readNat input 4
  if n.isValidChar then return .character (Char.ofNat n) else Walk.refuse (.invalidChar n)

def readString : Readers Value := do
  let n ← readNat input 4
  let text ← readBytes input n
  match String.fromUTF8? (ByteArray.mk text.toArray) with
  | some s => return .string s
  | none => Walk.refuse .invalidUtf8

/-- Reads what stands in a list. -/
def inList {α : Type} (w : Readers α) : Readers α := do
  let r ← Walk.state
  Walk.move { r with depth := r.depth + 1 }
  let a ← w
  let r ← Walk.state
  let depth ← Walk.difference r.depth 1
  Walk.move { r with depth := depth }
  return a

/-- Reads a value, telling when it begins and when it has been read. -/
def call {α : Type} (w : Readers α) : Readers α := do
  let r ← Walk.state
  Walk.note .enter
  let a ← w
  Walk.note (.leave r.depth)
  return a

/-- Reads what stands behind the tag of a kind; `item` reads an item of a list. -/
def readPayload (item : Readers Value) : ValueKind → Readers Value
  | .boolean => do
    let n ← readNat input 1
    return .boolean (n != 0)
  | .integer => do
    let n ← readNat input 8
    return .integer (UInt64.ofNat n).toInt64
  | .object => do
    let n ← readNat input 4
    return .object (UInt32.ofNat n).toInt32
  | .float => readFloat input
  | .character => readCharacter input
  | .string => readString input
  | .list => do
    let r ← Walk.state
    if maxDepth ≤ r.depth then Walk.refuse .tooDeep
    else do
      let count ← readNat input 4
      let items ← inList (item.repeated count)
      return .list items
  | kind => Walk.refuse (.unsupported kind)

/-- Reads a value, with at most `levels` values under way at a time. -/
def readValue : (levels : Nat) → Readers Value
  | 0 => Walk.halt .outOfSteps
  | levels + 1 => call (readKind input >>= readPayload input (readValue levels))

/-- Reads the one value that the input should be. -/
def readWhole : Readers Value := do
  let value ← readValue input (maxDepth + 1)
  let r ← Walk.state
  let remaining ← Walk.difference input.length r.offset
  if 0 < remaining then Walk.refuse (.trailingBytes remaining) else return value

end

variable {α β : Type} {input : Bytes} {levels count : Nat} {r : Reader}

/-! ### The cost of a walk -/

theorem prefix_append_cases {γ : Type} {p a b : List γ} (h : p <+: a ++ b) :
    p <+: a ∨ ∃ q, q <+: b ∧ p = a ++ q := by
  rcases List.prefix_or_prefix_of_prefix h (List.prefix_append a b) with hp | ⟨q, rfl⟩
  · exact .inl hp
  · exact .inr ⟨q, (List.prefix_append_right_inj a).mp h, rfl⟩

@[simp] theorem begun_append (j j' : List (Reader × Act)) :
    begun (j ++ j') = begun j + begun j' := List.countP_append

@[simp] theorem ended_append (j j' : List (Reader × Act)) : ended (j ++ j') = ended j + ended j' :=
  List.countP_append

/-- A walk reads what is there: it puts the depth back as it was, has no more than `levels` values
under way at a time, and has paid four bytes for each that it began, but for one at which it
stopped. -/
structure Orderly (input : Bytes) (levels : Nat) (r : Reader)
    (t : Walked DecodeError Reader Act α) (o : Except DecodeError (α × Bytes)) : Prop
    extends Walked.Follows Reader.offset input r t o where
  depth : ∀ a, t.result = .ok a → t.state.depth = r.depth
  restored : ∀ r' entry, (r', Act.leave entry) ∈ t.journal → r'.depth = entry
  nested : ∀ p, p <+: t.journal → begun p ≤ ended p + levels
  closed : ∀ a, t.result = .ok a → begun t.journal = ended t.journal
  paid : ∀ a, t.result = .ok a → r.offset + 4 * begun t.journal ≤ t.state.offset
  owed : r.offset + 4 * begun t.journal ≤ t.state.offset + 4

namespace Orderly

/-- Taking bytes begins no value. -/
theorem of_quiet {t : Walked DecodeError Reader Act α} {o : Except DecodeError (α × Bytes)}
    (h : Walked.Follows Reader.offset input r t o) (hdepth : t.state.depth = r.depth)
    (hquiet : ∀ e ∈ t.journal, e.2.isEnter = false ∧ e.2.isLeave = false) :
    Orderly input levels r t o := by
  have hnone : ∀ p, p <+: t.journal → begun p = 0 := by
    intro p hp
    rw [begun, List.countP_eq_zero]
    intro e he
    rw [(hquiet e (hp.subset he)).1]
    exact Bool.false_ne_true
  have hbegun : begun t.journal = 0 := hnone _ (List.prefix_refl _)
  have hended : ended t.journal = 0 := by
    rw [ended, List.countP_eq_zero]
    intro e he
    rw [(hquiet e he).2]
    exact Bool.false_ne_true
  have hle := h.le
  refine ⟨h, fun _ _ => hdepth, ?_, ?_, ?_, ?_, ?_⟩
  · intro r' entry he
    cases (hquiet _ he).2
  · intro p hp
    rw [hnone p hp]
    exact Nat.zero_le _
  · intro _ _
    rw [hbegun, hended]
  · intro _ _
    omega
  · omega

/-- Of a walk that stops nothing is said about its end. -/
theorem of_error {t : Walked DecodeError Reader Act α} {o : Except DecodeError (α × Bytes)}
    {stop : Halt DecodeError} (ht : t.result = .error stop)
    (h : Walked.Follows Reader.offset input r t o)
    (hrestored : ∀ r' entry, (r', Act.leave entry) ∈ t.journal → r'.depth = entry)
    (hnested : ∀ p, p <+: t.journal → begun p ≤ ended p + levels)
    (howed : r.offset + 4 * begun t.journal ≤ t.state.offset + 4) :
    Orderly input levels r t o := by
  refine ⟨h, ?_, hrestored, hnested, ?_, ?_, howed⟩
  all_goals
    intro a ha
    rw [ht] at ha
    cases ha

theorem pure (a : α) (h : r.offset ≤ input.length) :
    Orderly input levels r ((Pure.pure a : Readers α) r) (.ok (a, input.drop r.offset)) :=
  of_quiet (.pure a h) rfl (List.forall_mem_nil _)

theorem refuse (e : DecodeError) (h : r.offset ≤ input.length) :
    Orderly input levels r ((Walk.refuse e : Readers α) r) (.error e) :=
  of_quiet (.refuse e h) rfl (List.forall_mem_nil _)

theorem bind {w : Readers α} {k : α → Readers β} {o : Except DecodeError (α × Bytes)}
    {f : α × Bytes → Except DecodeError (β × Bytes)} (h : Orderly input levels r (w r) o)
    (hk : ∀ a, (w r).result = .ok a → Orderly input levels (w r).state (k a (w r).state)
      (f (a, input.drop (w r).state.offset))) :
    Orderly input levels r ((w >>= k) r) (o >>= f) := by
  have hfollows := h.toFollows.bind fun a ha => (hk a ha).toFollows
  cases hw : (w r).result with
  | error stop =>
    rw [Walk.bind_of_error hw] at hfollows ⊢
    exact .of_error rfl hfollows h.restored h.nested h.owed
  | ok a =>
    have hthen := hk a hw
    have hclosed := h.closed a hw
    have hpaid := h.paid a hw
    have howed := hthen.owed
    rw [Walk.bind_of_ok hw] at hfollows ⊢
    refine ⟨hfollows, ?_, ?_, ?_, ?_, ?_, ?_⟩
    · intro b hb
      exact (hthen.depth b hb).trans (h.depth a hw)
    · intro r' entry he
      rcases List.mem_append.mp he with he | he
      · exact h.restored r' entry he
      · exact hthen.restored r' entry he
    · intro p hp
      rcases prefix_append_cases hp with hp | ⟨q, hq, rfl⟩
      · exact h.nested p hp
      · have hnested := hthen.nested q hq
        rw [begun_append, ended_append]
        omega
    · intro b hb
      rw [begun_append, ended_append, hclosed, hthen.closed b hb]
    · intro b hb
      have hpaid' := hthen.paid b hb
      dsimp only
      rw [begun_append]
      omega
    · dsimp only
      rw [begun_append]
      omega

theorem map {w : Readers α} {o : Except DecodeError (α × Bytes)}
    (h : Orderly input levels r (w r) o) (f : α → β) :
    Orderly input levels r ((w >>= fun a => Pure.pure (f a)) r)
      (o.map fun p => (f p.1, p.2)) := by
  have hmap : o.map (fun p => (f p.1, p.2)) = o >>= fun p => .ok (f p.1, p.2) := by
    cases o <;> rfl
  rw [hmap]
  exact h.bind fun a _ => .pure (f a) h.inside

theorem lift (x : Except DecodeError α) (h : r.offset ≤ input.length) :
    Orderly input levels r ((Walk.lift x : Readers α) r)
      (x.map fun a => (a, input.drop r.offset)) := by
  cases x with
  | error e => exact .refuse e h
  | ok a => exact .pure a h

end Orderly

/-! ### Scalars -/

theorem readBytes_of_le (h : r.offset + count ≤ input.length) :
    readBytes input count r =
      ⟨.ok ((input.drop r.offset).take count), { r with offset := r.offset + count },
        [(r, .take count)]⟩ := by
  have hslice : slice input r.offset (r.offset + count) =
      Pure.pure ((input.drop r.offset).take count) := by
    rw [slice, if_pos ⟨Nat.le_add_right _ _, h⟩, Nat.add_sub_cancel_left]
  rw [readBytes, Walk.note_bind, Walk.state_bind, Walk.difference_of_le (by omega), Walk.pure_bind,
    if_neg (by omega), hslice, Walk.pure_bind, Walk.move_bind]
  rfl

theorem readBytes_of_lt (hr : r.offset ≤ input.length) (h : input.length < r.offset + count) :
    readBytes input count r =
      ⟨.error (.refused (.truncated r.offset (count - (input.length - r.offset)))), r,
        [(r, .take count)]⟩ := by
  rw [readBytes, Walk.note_bind, Walk.state_bind, Walk.difference_of_le hr, Walk.pure_bind,
    if_pos (by omega)]
  rfl

theorem readBytes_orderly (levels count : Nat) (h : r.offset ≤ input.length) :
    Orderly input levels r (readBytes input count r)
      (take input.length count (input.drop r.offset)).outcome := by
  have hlength : (input.drop r.offset).length = input.length - r.offset := List.length_drop
  have hquiet : ∀ e ∈ [(r, Act.take count)], e.2.isEnter = false ∧ e.2.isLeave = false := by
    intro e he
    rw [List.mem_singleton.mp he]
    exact ⟨rfl, rfl⟩
  by_cases hle : r.offset + count ≤ input.length
  · rw [readBytes_of_le hle, outcome_take_of_le (by omega)]
    refine .of_quiet ⟨⟨Nat.le_add_right _ _, ?_, List.pairwise_singleton _ _⟩, rfl, hle, ?_⟩ rfl
      hquiet
    · intro e he
      rw [List.mem_singleton.mp he]
      exact ⟨Nat.le_refl _, Nat.le_add_right _ _⟩
    · intro a rest ho
      cases ho
      rw [List.drop_drop]
  · have hlt : input.length < r.offset + count := Nat.lt_of_not_le hle
    rw [readBytes_of_lt h hlt, outcome_take_of_lt (by omega), hlength,
      Nat.sub_sub_self h]
    refine .of_quiet ⟨⟨Nat.le_refl _, ?_, List.pairwise_singleton _ _⟩, rfl, h, ?_⟩ rfl hquiet
    · intro e he
      rw [List.mem_singleton.mp he]
      exact ⟨Nat.le_refl _, Nat.le_refl _⟩
    · intro a rest ho
      cases ho

theorem readNat_orderly (levels count : Nat) (h : r.offset ≤ input.length) :
    Orderly input levels r (readNat input count r)
      (takeNat input.length count (input.drop r.offset)).outcome := by
  rw [readNat, takeNat, Reading.outcome_map]
  exact (readBytes_orderly levels count h).map ofLittleEndian

theorem readKind_orderly (levels : Nat) (h : r.offset ≤ input.length) :
    Orderly input levels r (readKind input r)
      (takeKind input.length (input.drop r.offset)).outcome := by
  rw [readKind, outcome_takeKind]
  have hn := readNat_orderly levels 4 h
  exact hn.bind fun n _ => .lift _ hn.inside

theorem readFloat_orderly (h : r.offset ≤ input.length) :
    Orderly input levels r (readFloat input r)
      (takeFloat input.length (input.drop r.offset)).outcome := by
  rw [readFloat, takeFloat, Reading.outcome_andThen]
  have hn := readNat_orderly levels 8 h
  refine hn.bind fun n _ => ?_
  dsimp only
  cases Binary64.ofBits? (UInt64.ofNat n) with
  | none => exact .refuse _ hn.inside
  | some x => exact .pure _ hn.inside

theorem readCharacter_orderly (h : r.offset ≤ input.length) :
    Orderly input levels r (readCharacter input r)
      (takeCharacter input.length (input.drop r.offset)).outcome := by
  rw [readCharacter, takeCharacter, Reading.outcome_andThen]
  have hn := readNat_orderly levels 4 h
  refine hn.bind fun n _ => ?_
  dsimp only
  split
  · exact .pure _ hn.inside
  · exact .refuse _ hn.inside

theorem readString_orderly (h : r.offset ≤ input.length) :
    Orderly input levels r (readString input r)
      (takeString input.length (input.drop r.offset)).outcome := by
  rw [readString, takeString, Reading.outcome_andThen]
  have hn := readNat_orderly levels 4 h
  refine hn.bind fun n _ => ?_
  dsimp only
  rw [Reading.outcome_andThen]
  have htext := readBytes_orderly levels n hn.inside
  refine htext.bind fun text _ => ?_
  dsimp only
  cases String.fromUTF8? (ByteArray.mk text.toArray) with
  | none => exact .refuse _ htext.inside
  | some s => exact .pure _ htext.inside

/-! ### Values -/

theorem call_of_ok {w : Readers α} {a : α} (h : (w r).result = .ok a) :
    call w r = ⟨.ok a, (w r).state,
      (r, .enter) :: ((w r).journal ++ [((w r).state, .leave r.depth)])⟩ := by
  rw [call, Walk.state_bind, Walk.note_bind, Walk.bind_of_ok h, Walk.note_bind]
  rfl

theorem call_of_error {w : Readers α} {stop : Halt DecodeError} (h : (w r).result = .error stop) :
    call w r = ⟨.error stop, (w r).state, (r, .enter) :: (w r).journal⟩ := by
  rw [call, Walk.state_bind, Walk.note_bind, Walk.bind_of_error h]

theorem call_follows {w : Readers α} {o : Except DecodeError (α × Bytes)}
    (h : Walked.Follows Reader.offset input r (w r) o) :
    Walked.Follows Reader.offset input r (call w r) o := by
  have hsame : o = o >>= fun p => .ok (p.1, p.2) := by
    cases o <;> rfl
  rw [call, Walk.state_bind, hsame]
  exact .note (h.bind fun a _ => .note (.pure a h.inside))

@[simp] theorem begun_enter (j : List (Reader × Act)) : begun ((r, .enter) :: j) = begun j + 1 :=
  List.countP_cons_of_pos rfl

@[simp] theorem ended_enter (j : List (Reader × Act)) : ended ((r, .enter) :: j) = ended j :=
  List.countP_cons_of_neg Bool.false_ne_true

@[simp] theorem begun_leave (entry : Nat) : begun [(r, .leave entry)] = 0 := rfl

@[simp] theorem ended_leave (entry : Nat) : ended [(r, .leave entry)] = 1 := rfl

/-- A value costs the four bytes of its tag, which are paid before anything else is begun. -/
theorem Orderly.call {w : Readers α} {o : Except DecodeError (α × Bytes)}
    (h : Orderly input levels r (w r) o)
    (hpaid : ∀ a, (w r).result = .ok a →
      r.offset + 4 + 4 * begun (w r).journal ≤ (w r).state.offset)
    (howed : r.offset + 4 * begun (w r).journal ≤ (w r).state.offset) :
    Orderly input (levels + 1) r (call w r) o := by
  have hfollows := call_follows h.toFollows
  have hnested : ∀ p, p <+: (w r).journal →
      begun ((r, Act.enter) :: p) ≤ ended p + (levels + 1) := by
    intro p hp
    have := h.nested p hp
    rw [begun_enter]
    omega
  cases hw : (w r).result with
  | error stop =>
    rw [call_of_error hw] at hfollows ⊢
    refine .of_error rfl hfollows ?_ ?_ ?_
    · intro r' entry he
      exact h.restored r' entry (List.mem_of_ne_of_mem (fun he => by cases he) he)
    · intro p hp
      rcases List.prefix_cons_iff.mp hp with rfl | ⟨rest, rfl, hrest⟩
      · exact Nat.zero_le _
      · exact hnested rest hrest
    · simp only [begun_enter]
      omega
  | ok a =>
    have hclosed := h.closed a hw
    have hpaid := hpaid a hw
    rw [call_of_ok hw] at hfollows ⊢
    refine ⟨hfollows, fun _ _ => h.depth a hw, ?_, ?_, ?_, ?_, ?_⟩
    · intro r' entry he
      rcases List.mem_cons.mp he with he | he
      · cases he
      · rcases List.mem_append.mp he with he | he
        · exact h.restored r' entry he
        · cases List.mem_singleton.mp he
          exact h.depth a hw
    · intro p hp
      rcases List.prefix_cons_iff.mp hp with rfl | ⟨rest, rfl, hrest⟩
      · exact Nat.zero_le _
      · rcases prefix_append_cases hrest with hrest | ⟨q, hq, rfl⟩
        · exact hnested rest hrest
        · have hq' : begun q ≤ 0 := hq.sublist.countP_le
          simp only [begun_enter, ended_enter, begun_append, ended_append]
          omega
    · intro _ _
      simp only [begun_enter, ended_enter, begun_append, ended_append, begun_leave, ended_leave]
      omega
    · intro _ _
      simp only [begun_enter, begun_append, begun_leave]
      omega
    · simp only [begun_enter, begun_append, begun_leave]
      omega

theorem inList_of_ok {w : Readers α} {a : α}
    (h : (w { r with depth := r.depth + 1 }).result = .ok a)
    (hdepth : (w { r with depth := r.depth + 1 }).state.depth = r.depth + 1) :
    inList w r = ⟨.ok a, { (w { r with depth := r.depth + 1 }).state with depth := r.depth },
      (w { r with depth := r.depth + 1 }).journal⟩ := by
  rw [inList, Walk.state_bind, Walk.move_bind, Walk.bind_of_ok h, Walk.state_bind, hdepth,
    Walk.difference_of_le (Nat.le_add_left _ _), Walk.pure_bind, Walk.move_bind,
    Nat.add_sub_cancel]
  simp only [Pure.pure, List.append_nil]

theorem inList_of_error {w : Readers α} {stop : Halt DecodeError}
    (h : (w { r with depth := r.depth + 1 }).result = .error stop) :
    inList w r = ⟨.error stop, (w { r with depth := r.depth + 1 }).state,
      (w { r with depth := r.depth + 1 }).journal⟩ := by
  rw [inList, Walk.state_bind, Walk.move_bind, Walk.bind_of_error h]

/-- What stands in a list is read one deeper, and the depth is put back. -/
theorem Orderly.inList {w : Readers α} {o : Except DecodeError (α × Bytes)}
    (h : Orderly input levels { r with depth := r.depth + 1 }
      (w { r with depth := r.depth + 1 }) o) :
    Orderly input levels r (inList w r) o := by
  cases hw : (w { r with depth := r.depth + 1 }).result with
  | error stop =>
    have hresult := h.result
    rw [inList_of_error hw]
    rw [hw] at hresult
    exact .of_error rfl ⟨⟨h.le, h.between, h.sorted⟩, hresult, h.inside, h.left⟩ h.restored
      h.nested h.owed
  | ok a =>
    have hresult := h.result
    rw [inList_of_ok hw (h.depth a hw)]
    rw [hw] at hresult
    exact ⟨⟨⟨h.le, h.between, h.sorted⟩, hresult, h.inside, h.left⟩, fun _ _ => rfl, h.restored,
      h.nested, fun _ _ => h.closed a hw, fun _ _ => h.paid a hw, h.owed⟩

theorem repeated_orderly {w : Readers Value} {depth : Nat}
    (hw : ∀ r : Reader, r.offset ≤ input.length → r.depth = depth → Orderly input levels r (w r)
      (takeValue input.length depth (input.drop r.offset)).outcome)
    (count : Nat) (h : r.offset ≤ input.length) (hdepth : r.depth = depth) :
    Orderly input levels r (w.repeated count r)
      (takeValues input.length depth count (input.drop r.offset)).outcome := by
  induction count generalizing r with
  | zero =>
    rw [takeValues]
    exact .pure [] h
  | succ count ih =>
    rw [Walk.repeated, takeValues, Reading.outcome_widen, Reading.outcome_andThen]
    have hfirst := hw r h hdepth
    refine hfirst.bind fun value hvalue => ?_
    dsimp only
    rw [Reading.outcome_map]
    exact (ih hfirst.inside ((hfirst.depth value hvalue).trans hdepth)).map (value :: ·)

/-- A kind is paid with the four bytes of its tag, and no value is begun for it. -/
theorem readKind_paid (h : r.offset ≤ input.length) :
    begun (readKind input r).journal = 0 ∧
      ∀ kind, (readKind input r).result = .ok kind →
        (readKind input r).state.offset = r.offset + 4 := by
  by_cases hle : r.offset + 4 ≤ input.length
  · have hn : readNat input 4 r = ⟨.ok (ofLittleEndian ((input.drop r.offset).take 4)),
        { r with offset := r.offset + 4 }, [(r, .take 4)]⟩ := by
      rw [readNat, Walk.bind_of_ok (by rw [readBytes_of_le hle]), readBytes_of_le hle]
      rfl
    rw [readKind, Walk.bind_of_ok (by rw [hn]), hn]
    cases kindOf _ <;> exact ⟨rfl, fun _ _ => rfl⟩
  · have hlt : input.length < r.offset + 4 := Nat.lt_of_not_le hle
    have hn : readNat input 4 r = ⟨.error (.refused (.truncated r.offset
        (4 - (input.length - r.offset)))), r, [(r, .take 4)]⟩ := by
      rw [readNat, Walk.bind_of_error (by rw [readBytes_of_lt h hlt]), readBytes_of_lt h hlt]
    rw [readKind, Walk.bind_of_error (by rw [hn]), hn]
    exact ⟨rfl, fun kind hkind => by cases hkind⟩

/-- A value is read in order if what stands behind its tag is. -/
theorem Orderly.value {k : ValueKind → Readers Value}
    {f : ValueKind × Bytes → Except DecodeError (Value × Bytes)} (h : r.offset ≤ input.length)
    (hk : ∀ kind, (readKind input r).result = .ok kind →
      Orderly input levels (readKind input r).state (k kind (readKind input r).state)
        (f (kind, input.drop (readKind input r).state.offset))) :
    Orderly input (levels + 1) r (Encoding.call (readKind input >>= k) r)
      ((takeKind input.length (input.drop r.offset)).outcome >>= f) := by
  have hkind := readKind_orderly levels h
  obtain ⟨hnone, hfour⟩ := readKind_paid h
  refine (hkind.bind hk).call ?_ ?_
  · intro a ha
    cases hw : (readKind input r).result with
    | error stop =>
      rw [Walk.bind_of_error hw] at ha
      cases ha
    | ok kind =>
      rw [Walk.bind_of_ok hw] at ha ⊢
      have hpaid := (hk kind hw).paid a ha
      have := hfour kind hw
      simp only [begun_append]
      omega
  · cases hw : (readKind input r).result with
    | error stop =>
      have hle := hkind.le
      rw [Walk.bind_of_error hw]
      dsimp only
      omega
    | ok kind =>
      rw [Walk.bind_of_ok hw]
      have howed := (hk kind hw).owed
      have := hfour kind hw
      simp only [begun_append]
      omega

/-- What a list holds is read in order if each item is. -/
theorem readPayload_list {item : Readers Value} (h : r.offset ≤ input.length)
    (hdepth : ¬ maxDepth ≤ r.depth)
    (hitem : ∀ r' : Reader, r'.offset ≤ input.length → r'.depth = r.depth + 1 →
      Orderly input levels r' (item r')
        (takeValue input.length (r.depth + 1) (input.drop r'.offset)).outcome) :
    Orderly input levels r (readPayload input item .list r)
      ((takeNat input.length 4 (input.drop r.offset)).andThen fun count rest _ =>
        (takeValues input.length (r.depth + 1) count rest).map .list).outcome := by
  rw [readPayload, Walk.state_bind, if_neg hdepth, Reading.outcome_andThen]
  have hcount := readNat_orderly levels 4 h
  refine hcount.bind fun count hn => ?_
  dsimp only
  rw [Reading.outcome_map]
  have hsame := hcount.depth count hn
  refine Orderly.map (Orderly.inList ?_) Value.list
  exact repeated_orderly (hsame ▸ hitem) count hcount.inside (congrArg (· + 1) hsame)

/-- A value is read in order if the items of a list that may be opened are. -/
theorem readValue_orderly_of (h : r.offset ≤ input.length)
    (hitem : ¬ maxDepth ≤ r.depth → ∀ r' : Reader, r'.offset ≤ input.length →
      r'.depth = r.depth + 1 → Orderly input levels r' (readValue input levels r')
        (takeValue input.length (r.depth + 1) (input.drop r'.offset)).outcome) :
    Orderly input (levels + 1) r (readValue input (levels + 1) r)
      (takeValue input.length r.depth (input.drop r.offset)).outcome := by
  rw [readValue, takeValue, Reading.outcome_andThen]
  refine Orderly.value h fun kind hkind => ?_
  have horderly := readKind_orderly levels h
  have hinside := horderly.inside
  have hsame := horderly.depth kind hkind
  generalize (readKind input r).state = r' at hinside hsame
  dsimp only
  cases kind with
  | boolean =>
    rw [Reading.outcome_map]
    exact (readNat_orderly levels 1 hinside).map fun n => Value.boolean (n != 0)
  | integer =>
    rw [Reading.outcome_map]
    exact (readNat_orderly levels 8 hinside).map fun n => Value.integer (UInt64.ofNat n).toInt64
  | object =>
    rw [Reading.outcome_map]
    exact (readNat_orderly levels 4 hinside).map fun n => Value.object (UInt32.ofNat n).toInt32
  | float => exact readFloat_orderly hinside
  | character => exact readCharacter_orderly hinside
  | string => exact readString_orderly hinside
  | list =>
    rw [← hsame] at hitem ⊢
    dsimp only
    split
    next hdepth =>
      rw [readPayload, Walk.state_bind, if_pos hdepth]
      exact .refuse .tooDeep hinside
    next hdepth => exact readPayload_list hinside hdepth (hitem hdepth)
  | none | returned | error => exact .refuse _ hinside

/-- By induction on how many more lists may be opened. -/
theorem readValue_orderly (levels : Nat) (h : r.offset ≤ input.length)
    (hdepth : r.depth + levels = maxDepth) :
    Orderly input (levels + 1) r (readValue input (levels + 1) r)
      (takeValue input.length r.depth (input.drop r.offset)).outcome := by
  induction levels generalizing r with
  | zero => exact readValue_orderly_of h fun hopen => absurd hdepth (by omega)
  | succ levels ih =>
    refine readValue_orderly_of h fun _ r' hr' hsame => ?_
    have hitem := ih hr' (by omega)
    rwa [hsame] at hitem

/-- The walk through the whole input comes to what decoding does. -/
theorem readWhole_orderly (input : Bytes) :
    Orderly input (maxDepth + 1) ⟨0, 0⟩ (readWhole input ⟨0, 0⟩)
      ((Value.decode input).map fun value => (value, ([] : Bytes))) := by
  have hvalue : Orderly input (maxDepth + 1) ⟨0, 0⟩ (readValue input (maxDepth + 1) ⟨0, 0⟩)
      (front input) := readValue_orderly maxDepth (Nat.zero_le _) (Nat.zero_add _)
  have hdecode : (Value.decode input).map (fun value => (value, ([] : Bytes))) =
      front input >>= fun p =>
        if p.2.isEmpty then .ok (p.1, p.2) else .error (.trailingBytes p.2.length) := by
    rw [Value.decode_eq]
    cases front input with
    | error e => rfl
    | ok p =>
      obtain ⟨value, rest⟩ := p
      cases rest <;> rfl
  rw [readWhole, hdecode]
  refine hvalue.bind fun value _ => ?_
  have hinside := hvalue.inside
  generalize (readValue input (maxDepth + 1) ⟨0, 0⟩).state = r at hinside
  rw [Walk.state_bind, Walk.difference_of_le hinside, Walk.pure_bind, ← List.length_drop]
  dsimp only
  cases hrest : input.drop r.offset with
  | nil =>
    have hkeep : Orderly input (maxDepth + 1) r ((Pure.pure value : Readers Value) r)
        (.ok (value, input.drop r.offset)) := .pure value hinside
    rw [hrest] at hkeep
    exact hkeep
  | cons b rest => exact .refuse _ hinside

/-! ### What a decoded value holds -/

theorem exists_of_bind {x : Except EncodeError α} {f : α → Except EncodeError β} {b : β}
    (h : x >>= f = .ok b) : ∃ a, x = .ok a ∧ f a = .ok b := by
  cases x with
  | error e => cases h
  | ok a => exact ⟨a, rfl, h⟩

theorem length_of_lengthBytes {n : Nat} {count : Bytes} (h : lengthBytes n = .ok count) :
    count.length = 4 := by
  unfold lengthBytes at h
  split at h <;> cases h
  exact length_littleEndian 4 n

/-- A node without others below it takes at least the four bytes of its tag and one behind it. -/
theorem length_of_lone {value : Value} {depth : Nat} {written : Bytes}
    (h : value.nodes depth = [(depth, value)]) (hwritten : 1 ≤ written.length) :
    5 * (value.nodes depth).length ≤ 4 + written.length := by
  rw [h, List.length_singleton]
  omega

mutual

theorem length_nodes_le (value : Value) (depth : Nat) {written : Bytes}
    (h : payload depth value = .ok written) :
    5 * (value.nodes depth).length ≤ 4 + written.length := by
  cases value with
  | boolean b =>
    cases h
    exact length_of_lone rfl (Nat.le_refl _)
  | integer n =>
    cases h
    exact length_of_lone rfl (by simp [length_littleEndian])
  | float x =>
    rw [payload] at h
    split at h <;> cases h
    exact length_of_lone rfl (by simp [length_littleEndian])
  | character c =>
    cases h
    exact length_of_lone rfl (by simp [length_littleEndian])
  | object id =>
    cases h
    exact length_of_lone rfl (by simp [length_littleEndian])
  | string s =>
    rw [payload] at h
    obtain ⟨count, hcount, hrest⟩ := exists_of_bind h
    cases hrest
    exact length_of_lone rfl (by rw [List.length_append, length_of_lengthBytes hcount]; omega)
  | list items =>
    rw [payload] at h
    split at h
    next => cases h
    next =>
      obtain ⟨count, hcount, h⟩ := exists_of_bind h
      obtain ⟨bytes, hbytes, hrest⟩ := exists_of_bind h
      cases hrest
      have hitems := length_nodesOfItems_le items (depth + 1) hbytes
      rw [Value.nodes, List.length_cons, List.length_append, length_of_lengthBytes hcount]
      omega
  | error code => cases h
  | returned inner => cases h

theorem length_nodesOfItems_le (items : List Value) (depth : Nat) {written : Bytes}
    (h : payloads depth items = .ok written) :
    5 * (Value.nodesOfItems depth items).length ≤ written.length := by
  cases items with
  | nil => exact Nat.zero_le _
  | cons value items =>
    rw [payloads] at h
    obtain ⟨first, hfirst, h⟩ := exists_of_bind h
    obtain ⟨rest, hrest, hwritten⟩ := exists_of_bind h
    cases hwritten
    have hvalue := length_nodes_le value depth hfirst
    have hitems := length_nodesOfItems_le items depth hrest
    rw [Value.nodesOfItems, List.length_append, List.length_append, List.length_append, tagBytes,
      length_littleEndian]
    omega

end

/-- What a walk through an input costs. -/
structure WithinBounds (input : Bytes) (t : Walked DecodeError Reader Act Value) : Prop where
  calls : begun t.journal ≤ input.length / 4 + 1
  nesting : ∀ p, p <+: t.journal → begun p ≤ ended p + 513
  forward : (t.journal.map (·.1.offset) ++ [t.state.offset]).Pairwise (· ≤ ·)
  inside : (∀ e ∈ t.journal, e.1.offset ≤ input.length) ∧ t.state.offset ≤ input.length
  depth : ∀ r entry, (r, Act.leave entry) ∈ t.journal → r.depth = entry

theorem Orderly.withinBounds {t : Walked DecodeError Reader Act Value}
    {o : Except DecodeError (Value × Bytes)} (h : Orderly input (maxDepth + 1) ⟨0, 0⟩ t o) :
    WithinBounds input t := by
  have hinside := h.inside
  refine ⟨?_, h.nested, ?_, ⟨h.place_le, hinside⟩, h.restored⟩
  · have howed := h.owed
    dsimp only at howed
    omega
  · rw [List.pairwise_append]
    refine ⟨h.sorted, List.pairwise_singleton _ _, ?_⟩
    intro m hm n hn
    obtain ⟨e, he, rfl⟩ := List.mem_map.mp hm
    rw [List.mem_singleton.mp hn]
    exact (h.between e he).2

end Encoding

open Encoding

/-- Decoding is a walk through the bytes that is never out of range, in which values are begun and
lists opened as far as there are bytes for them. -/
theorem Value.decode_withinBounds (input : Bytes) :
    (readWhole input ⟨0, 0⟩).result = (decode input).mapError .refused ∧
      WithinBounds input (readWhole input ⟨0, 0⟩) ∧
      ∀ value, decode input = .ok value → (value.nodes 0).length ≤ input.length / 5 ∧
        ∀ depth items, (depth, .list items) ∈ value.nodes 0 → depth < 512 := by
  have horderly := readWhole_orderly input
  refine ⟨?_, horderly.withinBounds, fun value h => ?_⟩
  · rw [horderly.result]
    cases decode input <;> rfl
  · obtain ⟨bytes, hencode, hcanonical⟩ := exists_canonical_of_decode h
    have hlength : bytes.length = input.length := by
      rw [hcanonical.written_eq, List.length_zipWith, hcanonical.length_mask, Nat.min_self]
    have hnone : firstOffence? (value.nodes 0) = none := by
      rw [Option.eq_none_iff_forall_ne_some]
      intro e he
      rw [encode_eq_error_iff.mpr he] at hencode
      cases hencode
    refine ⟨?_, (encodable_iff.mpr hnone).shallow⟩
    obtain ⟨written, hwritten, hbytes⟩ := exists_of_bind hencode
    cases hbytes
    have hnodes := length_nodes_le value 0 hwritten
    rw [List.length_append, tagBytes, length_littleEndian] at hlength
    omega

/-- An empty list beside a boolean, and a list of one boolean that claims to hold all that fit. -/
theorem Value.decode_withinBounds_claimed :
    let input : Bytes := [8, 0, 0, 0, 2, 0, 0, 0, 8, 0, 0, 0, 0, 0, 0, 0, 2, 0, 0, 0, 1]
    let value : Value := .list [.list [], .boolean true]
    let hostile : Bytes := [8, 0, 0, 0, 255, 255, 255, 255, 2, 0, 0, 0, 1]
    decode input = .ok value ∧ (value.nodes 0).length = 3 ∧ 3 ≤ input.length / 5 ∧
      (1, .list []) ∈ value.nodes 0 ∧ 1 < 512 ∧
      decode hostile = .error (.truncated 13 4) ∧
      begun (readWhole hostile ⟨0, 0⟩).journal ≤ 4 := by
  intro input value hostile
  have h : decode input = .ok value := by cbv
  have hmem : (1, .list []) ∈ value.nodes 0 := by simp [value, nodes, nodesOfItems]
  obtain ⟨_, _, hvalue⟩ := decode_withinBounds input
  obtain ⟨hnodes, hshallow⟩ := hvalue value h
  have hhostile : decode hostile = .error (.truncated 13 4) := by cbv
  have hcalls := (decode_withinBounds hostile).2.1.calls
  exact ⟨h, rfl, hnodes, hmem, hshallow 1 [] hmem, hhostile, Nat.le_trans hcalls (by decide)⟩

end MooScript
