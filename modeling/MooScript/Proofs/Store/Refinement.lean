import Mathlib
import MooScript.Proofs.Store.History
import MooScript.Proofs.Store.Operation

/-! A store answers as its history says. The tables of a store and its history are related by
`Tracks`, which holds of a fresh store and is kept by every operation. -/
namespace MooScript.Store

variable {s s' : Store} {h : History} {e : Event} {id : ObjectId} {props : Properties}

theorem toInt_ofNat_of_le {n : Nat} (hn : n ≤ Int32.maxValue.toInt.toNat) :
    (Int32.ofNat n).toInt = n :=
  Int32.toInt_ofNat_of_lt (Nat.lt_succ_of_le hn)

theorem toInt_maxObject : s.maxObject.toInt = (s.created : Int) - 1 := by
  have hle : s.created ≤ 2147483647 := s.created_le
  exact Int32.toInt_ofInt_of_le (by omega) (by omega)

/-- The object whose liveness an operation depends on. -/
def Operation.subject? : Operation → Option ObjectId
  | create | maxObject | isValid _ => none
  | recycle id | addProperty id _ _ | deleteProperty id _ | property id _ | propertyNames id =>
    some id

/-- Everything that an operation can do to a store. -/
inductive Step (s : Store) : Operation → Answer → Store → Prop
  | create (room : s.created < Int32.maxValue.toInt.toNat) :
      Step s .create (.object s.created)
        ⟨s.created + 1, room, s.objects.insert (.ofNat s.created) .empty⟩
  | full (full : s.created = Int32.maxValue.toInt.toNat) : Step s .create (.failed .quota) s
  | maxObject : Step s .maxObject (.object ((s.created : Int) - 1)) s
  | isValid {id : ObjectId} : Step s (.isValid id) (.truth (s.isValid id)) s
  | dead {op : Operation} {id : ObjectId} (subject : op.subject? = some id)
      (dead : s.isValid id = false) : Step s op (.failed .invalidIndirection) s
  | recycle {id : ObjectId} {props : Properties} (found : s.objects.get? id = some props) :
      Step s (.recycle id) .done { s with objects := s.objects.erase id }
  | add {id : ObjectId} {props : Properties} {name : String} {value : Value}
      (found : s.objects.get? id = some props) (fresh : props.get? name = none) :
      Step s (.addProperty id name value) .done (s.setProperties id (props.insert name value))
  | duplicate {id : ObjectId} {props : Properties} {name : String} {value old : Value}
      (found : s.objects.get? id = some props) (defined : props.get? name = some old) :
      Step s (.addProperty id name value) (.failed .invalidArgument) s
  | delete {id : ObjectId} {props : Properties} {name : String} {old : Value}
      (found : s.objects.get? id = some props) (defined : props.get? name = some old) :
      Step s (.deleteProperty id name) .done (s.setProperties id (props.erase name))
  | absent {id : ObjectId} {props : Properties} {name : String}
      (found : s.objects.get? id = some props) (absent : props.get? name = none) :
      Step s (.deleteProperty id name) (.failed .propNotFound) s
  | read {id : ObjectId} {props : Properties} {name : String} {value : Value}
      (found : s.objects.get? id = some props) (defined : props.get? name = some value) :
      Step s (.property id name) (.value value) s
  | unread {id : ObjectId} {props : Properties} {name : String}
      (found : s.objects.get? id = some props) (absent : props.get? name = none) :
      Step s (.property id name) (.failed .propNotFound) s
  | names {id : ObjectId} {props : Properties} (found : s.objects.get? id = some props) :
      Step s (.propertyNames id) (.names props.keys) s

theorem perform_create_of_lt (room : s.created < Int32.maxValue.toInt.toNat) :
    Operation.create.perform s = (.object s.created,
      ⟨s.created + 1, room, s.objects.insert (.ofNat s.created) .empty⟩) := by
  simp only [Operation.perform, create, dif_pos room, Except.map, settle,
    toInt_ofNat_of_le s.created_le]

theorem perform_create_of_eq (full : s.created = Int32.maxValue.toInt.toNat) :
    Operation.create.perform s = (.failed .quota, s) := by
  simp only [Operation.perform, create, dif_neg (Nat.not_lt_of_ge full.ge), Except.map, settle]

theorem perform_create_failed_iff : (Operation.create.perform s).1 = .failed .quota ↔
    s.created = Int32.maxValue.toInt.toNat := by
  rcases Nat.lt_or_eq_of_le s.created_le with room | full
  · rw [perform_create_of_lt room]
    exact ⟨Answer.noConfusion, fun full => absurd full (Nat.ne_of_lt room)⟩
  · rw [perform_create_of_eq full]
    exact ⟨fun _ => full, fun _ => rfl⟩

theorem perform_of_not_valid {op : Operation} (subject : op.subject? = some id)
    (dead : s.isValid id = false) : op.perform s = (.failed .invalidIndirection, s) := by
  have hdead := properties_of_not_valid dead
  cases op with
  | create | maxObject | isValid => cases subject
  | recycle | addProperty | deleteProperty | property | propertyNames =>
    cases subject
    simp only [Operation.perform, Store.recycle, Store.addProperty, Store.deleteProperty,
      Store.property, Store.propertyNames, hdead]
    rfl

theorem Step.perform_of_get? {op : Operation} (subject : op.subject? = some id)
    (found : s.objects.get? id = some props) : Step s op (op.perform s).1 (op.perform s).2 := by
  cases op with
  | create | maxObject | isValid => cases subject
  | recycle =>
    cases subject
    simp only [Operation.perform, recycle_of_get? found]
    exact .recycle found
  | addProperty _ name value =>
    cases subject
    simp only [Operation.perform, addProperty_of_get? found, Table.contains_eq]
    cases hname : props.get? name with
    | none => exact .add found hname
    | some old => exact .duplicate found hname
  | deleteProperty _ name =>
    cases subject
    simp only [Operation.perform, deleteProperty_of_get? found, Table.contains_eq]
    cases hname : props.get? name with
    | none => exact .absent found hname
    | some old => exact .delete found hname
  | property _ name =>
    cases subject
    simp only [Operation.perform, property_of_get? found]
    cases hname : props.get? name with
    | none => exact .unread found hname
    | some value => exact .read found hname
  | propertyNames =>
    cases subject
    simp only [Operation.perform, propertyNames_of_get? found]
    exact .names found

theorem Operation.step (op : Operation) (s : Store) :
    Step s op (op.perform s).1 (op.perform s).2 := by
  have hsubject {id : ObjectId} (subject : op.subject? = some id) :
      Step s op (op.perform s).1 (op.perform s).2 := by
    cases found : s.objects.get? id with
    | some props => exact .perform_of_get? subject found
    | none =>
      have dead : s.isValid id = false := by rw [isValid_eq, found, Option.isSome_none]
      rw [perform_of_not_valid subject dead]
      exact .dead subject dead
  cases op with
  | create =>
    rcases Nat.lt_or_eq_of_le s.created_le with room | full
    · rw [perform_create_of_lt room]
      exact .create room
    · rw [perform_create_of_eq full]
      exact .full full
  | maxObject =>
    simp only [Operation.perform, toInt_maxObject]
    exact .maxObject
  | isValid id => exact .isValid
  | recycle | addProperty | deleteProperty | property | propertyNames => exact hsubject rfl

/-! The relation of a history and a store. -/

structure Tracks (h : History) (s : Store) : Prop where
  objects : h.objects = (List.range s.created).map Int.ofNat
  live : ∀ id, s.isValid id = h.isLive id
  properties : ∀ id props, s.objects.get? id = some props → props.entries = h.defined id
  /-- Nothing happened yet to objects that are still to come. -/
  unborn : ∀ id : ObjectId, (s.created : Int) ≤ id.toInt →
    h.recycled id = false ∧ h.defined id = []

theorem tracks_initial : Tracks [] initial where
  objects := rfl
  live id := by
    have hdead : ¬ History.isLive [] id = true := by
      rw [History.isLive_iff]
      rintro ⟨hlow, hhigh, _⟩
      exact absurd hhigh (Int.not_lt_of_ge hlow)
    exact ((Bool.not_eq_true _).mp hdead).symm
  properties _ _ found := by cases found
  unborn _ _ := ⟨rfl, rfl⟩

theorem Tracks.created (htracks : Tracks h s) : h.created = s.created := by
  rw [History.created, htracks.objects, List.length_map, List.length_range]

theorem Tracks.lookup (htracks : Tracks h s) (found : s.objects.get? id = some props)
    (name : String) : (h.defined id).lookup name = props.get? name := by
  rw [← htracks.properties id props found, Table.get?]

theorem Tracks.ofLive (htracks : Tracks h s) (found : s.objects.get? id = some props)
    (answer : Answer) : h.ofLive id answer = answer := by
  rw [History.ofLive, ← htracks.live, isValid_eq, found, Option.isSome_some, if_pos rfl]

/-- A store answers as its history says. -/
theorem Tracks.answer (htracks : Tracks h s) {op : Operation} {answer : Answer}
    (step : Step s op answer s') : h.answer op = answer := by
  have hcreated := htracks.created
  cases step with
  | create room => rw [History.answer, hcreated, if_neg (by omega)]
  | full full =>
    rw [History.answer, hcreated, full]
    exact if_pos rfl
  | maxObject => rw [History.answer, hcreated]
  | isValid => rw [History.answer, htracks.live]
  | @dead _ id subject dead =>
    have hdead (answer : Answer) : h.ofLive id answer = .failed .invalidIndirection := by
      rw [History.ofLive, ← htracks.live, dead]
      rfl
    cases op with
    | create | maxObject | isValid => cases subject
    | recycle | addProperty | deleteProperty | property | propertyNames =>
      cases subject
      exact hdead _
  | recycle found => exact htracks.ofLive found _
  | add found fresh | duplicate found fresh | delete found fresh | absent found fresh
  | read found fresh | unread found fresh =>
    rw [History.answer, htracks.ofLive found, htracks.lookup found, fresh]
  | names found =>
    rw [History.answer, htracks.ofLive found, ← htracks.properties _ _ found]
    rfl

/-- An event that changes nothing. -/
structure Event.Inert (e : Event) : Prop where
  object : e.object? = none
  recycles : ∀ id, e.recycles id = false
  addition : ∀ id, e.addition? id = none
  touches : ∀ id name, e.touches id name = false

theorem Event.inert_failed (op : Operation) (code : ErrorCode) : Inert (op, .failed code) := by
  cases op <;> exact ⟨rfl, fun _ => rfl, fun _ => rfl, fun _ _ => rfl⟩

theorem Tracks.inert (htracks : Tracks h s) (inert : e.Inert) : Tracks (h ++ [e]) s where
  objects := (History.objects_concat_of_none inert.object).trans htracks.objects
  live id := by
    rw [History.isLive_concat_of_not inert.object (inert.recycles id), htracks.live]
  properties id props found := by
    rw [History.defined_concat_of_not (inert.addition id) (inert.touches id)]
    exact htracks.properties id props found
  unborn id hid := by
    rw [History.recycled_concat_of_not (inert.recycles id),
      History.defined_concat_of_not (inert.addition id) (inert.touches id)]
    exact htracks.unborn id hid

theorem Tracks.isLive (htracks : Tracks h s) (found : s.objects.get? id = some props) :
    0 ≤ id.toInt ∧ id.toInt < s.created ∧ h.recycled id = false := by
  rw [← htracks.created, ← History.isLive_iff, ← htracks.live, isValid_eq, found,
    Option.isSome_some]

theorem Tracks.ne_of_unborn (htracks : Tracks h s) (found : s.objects.get? id = some props)
    {id' : ObjectId} (hborn : (s.created : Int) ≤ id'.toInt) : id' ≠ id := by
  rintro rfl
  exact absurd (htracks.isLive found).2.1 (Int.not_lt_of_ge hborn)

/-- An event about the properties of one object and nothing else. -/
structure Event.Redefines (id : ObjectId) (e : Event) : Prop where
  object : e.object? = none
  recycles : ∀ id', e.recycles id' = false
  addition : ∀ id' ≠ id, e.addition? id' = none
  touches : ∀ id' ≠ id, ∀ name, e.touches id' name = false

theorem Tracks.setProperties (htracks : Tracks h s) {old : Properties}
    (found : s.objects.get? id = some old) (redefines : e.Redefines id)
    (hprops : props.entries =
      (old.entries.filter fun p => !e.touches id p.1) ++ (e.addition? id).toList) :
    Tracks (h ++ [e]) (s.setProperties id props) where
  objects := (History.objects_concat_of_none redefines.object).trans htracks.objects
  live id' := by
    rw [isValid_setProperties found, htracks.live,
      History.isLive_concat_of_not redefines.object (redefines.recycles id')]
  properties id' props' found' := by
    rw [get?_setProperties] at found'
    split at found'
    next hid =>
      cases found'
      rw [hid, hprops, htracks.properties id old found, History.defined_concat]
    next hid =>
      rw [History.defined_concat_of_not (redefines.addition id' hid) (redefines.touches id' hid)]
      exact htracks.properties id' props' found'
  unborn id' hborn := by
    have hid := htracks.ne_of_unborn found hborn
    rw [History.recycled_concat_of_not (redefines.recycles id'),
      History.defined_concat_of_not (redefines.addition id' hid) (redefines.touches id' hid)]
    exact htracks.unborn id' hborn

theorem Tracks.add (htracks : Tracks h s) {name : String} (value : Value)
    (found : s.objects.get? id = some props) (fresh : props.get? name = none) :
    Tracks (h ++ [(Operation.addProperty id name value, Answer.done)])
      (s.setProperties id (props.insert name value)) := by
  have hfresh : name ∉ props.keys := Table.get?_eq_none_iff.mp fresh
  have hnone : ∀ p ∈ props.entries, p.1 ≠ name := by
    rintro p hp rfl
    exact hfresh (List.mem_map_of_mem hp)
  refine htracks.setProperties found ⟨rfl, fun _ => rfl, fun id' hid => ?_, fun id' hid _ => ?_⟩ ?_
  · exact if_neg hid.symm
  · simp [Event.touches, hid.symm]
  · rw [Table.entries_insert_of_not_mem hfresh, List.filter_eq_self.mpr]
    · simp [Event.addition?]
    · intro p hp
      simp [Event.touches, (hnone p hp).symm]

theorem Tracks.delete (htracks : Tracks h s) {name : String}
    (found : s.objects.get? id = some props) :
    Tracks (h ++ [(Operation.deleteProperty id name, Answer.done)])
      (s.setProperties id (props.erase name)) := by
  refine htracks.setProperties found ⟨rfl, fun _ => rfl, fun _ _ => rfl, fun id' hid _ => ?_⟩ ?_
  · simp [Event.touches, hid.symm]
  · simp only [Table.erase, Event.touches, Event.addition?, beq_self_eq_true, Bool.true_and,
      Option.toList_none, List.append_nil]
    refine List.filter_congr fun p _ => ?_
    rw [Bool.eq_iff_iff, decide_eq_true_iff, Bool.not_eq_true', beq_eq_false_iff_ne, ne_comm]

theorem Tracks.recycle (htracks : Tracks h s) (found : s.objects.get? id = some props) :
    Tracks (h ++ [(Operation.recycle id, Answer.done)])
      { s with objects := s.objects.erase id } := by
  have hothers {id' : ObjectId} (hid : id' ≠ id) :
      Event.recycles id' (.recycle id, .done) = false := beq_false_of_ne hid.symm
  have hdefined (id' : ObjectId) :
      History.defined id' (h ++ [(Operation.recycle id, Answer.done)]) = h.defined id' :=
    History.defined_concat_of_not rfl fun _ => rfl
  constructor
  case objects => exact (History.objects_concat_of_none rfl).trans htracks.objects
  case live =>
    intro id'
    rw [isValid_eq, Table.get?_erase]
    split
    next hid =>
      have hrecycled :
          History.recycled (h ++ [(Operation.recycle id, Answer.done)]) id' = true := by
        rw [hid, History.recycled_concat, Event.recycles, beq_self_eq_true, Bool.or_true]
      rw [History.isLive, hrecycled, Bool.not_true, Bool.and_false]
      rfl
    next hid => rw [← isValid_eq, htracks.live, History.isLive_concat_of_not rfl (hothers hid)]
  case properties =>
    intro id' props' found'
    rw [Table.get?_erase] at found'
    split at found'
    next => cases found'
    next => rw [hdefined, htracks.properties id' props' found']
  case unborn =>
    intro id' hborn
    -- What is recycled was live, so it is none of those to come.
    have hid := htracks.ne_of_unborn found hborn
    rw [History.recycled_concat_of_not (hothers hid), hdefined]
    exact htracks.unborn id' hborn

theorem Tracks.create (htracks : Tracks h s) (room : s.created < Int32.maxValue.toInt.toNat) :
    Tracks (h ++ [(Operation.create, Answer.object s.created)])
      ⟨s.created + 1, room, s.objects.insert (.ofNat s.created) .empty⟩ := by
  have hrecycled (id : ObjectId) :
      History.recycled (h ++ [(Operation.create, Answer.object s.created)]) id = h.recycled id :=
    History.recycled_concat_of_not rfl
  have hdefined (id : ObjectId) :
      History.defined id (h ++ [(Operation.create, Answer.object s.created)]) = h.defined id :=
    History.defined_concat_of_not rfl fun _ => rfl
  have hobjects : History.objects (h ++ [(Operation.create, Answer.object s.created)]) =
      (List.range (s.created + 1)).map Int.ofNat := by
    rw [History.objects_concat, htracks.objects, List.range_succ, List.map_append]
    rfl
  have hnew : (Int32.ofNat s.created).toInt = s.created := toInt_ofNat_of_le s.created_le
  -- The new number was free: it was never recycled, and nothing was added to it.
  have hunborn := htracks.unborn (.ofNat s.created) hnew.ge
  constructor
  case objects => exact hobjects
  case live =>
    intro id
    rw [Bool.eq_iff_iff, History.isLive_iff, History.created, hobjects, hrecycled, isValid_eq,
      Table.get?_insert]
    split
    next hid =>
      rw [hid, hnew]
      simp [hunborn.1]
    next hid =>
      have hne : id.toInt ≠ s.created := fun heq => hid (Int32.toInt_inj.mp (heq.trans hnew.symm))
      rw [← isValid_eq, htracks.live, History.isLive_iff, htracks.created, List.length_map,
        List.length_range]
      refine and_congr_right fun _ => and_congr_left fun _ => ?_
      omega
  case properties =>
    intro id props found
    rw [Table.get?_insert] at found
    rw [hdefined]
    split at found
    next hid =>
      cases found
      rw [hid, hunborn.2]
      rfl
    next => exact htracks.properties id props found
  case unborn =>
    intro id hborn
    rw [hrecycled, hdefined]
    exact htracks.unborn id (Int.le_trans (Int.ofNat_le.mpr (Nat.le_succ _)) hborn)

theorem Tracks.step (htracks : Tracks h s) {op : Operation} {answer : Answer}
    (step : Step s op answer s') : Tracks (h ++ [(op, answer)]) s' := by
  cases step with
  | full | dead | duplicate | absent | unread => exact htracks.inert (Event.inert_failed _ _)
  | maxObject | isValid | read | names =>
    exact htracks.inert ⟨rfl, fun _ => rfl, fun _ => rfl, fun _ _ => rfl⟩
  | create room => exact htracks.create room
  | recycle found => exact htracks.recycle found
  | add found fresh => exact htracks.add _ found fresh
  | delete found => exact htracks.delete found

theorem Tracks.perform (htracks : Tracks h s) (ops : List Operation) :
    Tracks (h ++ (s.perform ops).1) (s.perform ops).2 := by
  induction ops generalizing h s with
  | nil =>
    rw [Store.perform, List.append_nil]
    exact htracks
  | cons op ops ih =>
    have htail := ih (htracks.step (op.step s))
    rw [List.append_assoc, List.singleton_append] at htail
    exact htail

theorem tracks_after (ops : List Operation) : Tracks (history ops) (after ops) :=
  tracks_initial.perform ops

theorem Step.failed {op : Operation} {code : ErrorCode} {answer : Answer}
    (step : Step s op answer s') (hfailed : answer = .failed code) : s' = s := by
  cases step with
  | full | dead | duplicate | absent | unread | maxObject | isValid | read | names => rfl
  | create | recycle | add | delete => cases hfailed

theorem Step.created_le {op : Operation} {answer : Answer} (step : Step s op answer s') :
    s.created ≤ s'.created := by
  cases step with
  | create => exact Nat.le_succ s.created
  | _ => exact Nat.le_refl s.created

theorem created_le_perform (s : Store) (ops : List Operation) :
    s.created ≤ (s.perform ops).2.created := by
  induction ops generalizing s with
  | nil => exact Nat.le_refl s.created
  | cons op ops ih => exact Nat.le_trans (op.step s).created_le (ih (op.perform s).2)

/-- What the answers of a store amount to after a history. -/
structure Refines (h : History) (s : Store) : Prop where
  /-- Every answer is the one that the history calls for. -/
  answers : ∀ op : Operation, (op.perform s).1 = h.answer op
  /-- A failure leaves the store as it was. -/
  failures : ∀ (op : Operation) (code : ErrorCode),
    (op.perform s).1 = .failed code → (op.perform s).2 = s
  /-- Objects are numbered from 0 on, in the order of their creation. -/
  numbers : h.objects = (List.range h.created).map Int.ofNat
  bounded : h.created ≤ Int32.maxValue.toInt
  names : ∀ id, h.isLive id = true → ((h.defined id).map Prod.fst).Nodup
  /-- Once there are no numbers left, there will be none. -/
  exhausted : (Operation.create.perform s).1 = .failed .quota →
    ∀ more, (Operation.create.perform (s.perform more).2).1 = .failed .quota

theorem Tracks.refines (htracks : Tracks h s) : Refines h s where
  answers op := (htracks.answer (op.step s)).symm
  failures op _ := (op.step s).failed
  numbers := by rw [htracks.created, htracks.objects]
  bounded := by
    rw [htracks.created]
    exact Int.ofNat_le.mpr s.created_le
  names id live := by
    rw [← htracks.live, isValid_eq, Option.isSome_iff_exists] at live
    obtain ⟨props, found⟩ := live
    rw [← htracks.properties id props found]
    exact props.nodup
  exhausted hfailed more := by
    have hfull := perform_create_failed_iff.mp hfailed
    have hle := hfull ▸ created_le_perform s more
    exact perform_create_failed_iff.mpr (Nat.le_antisymm (s.perform more).2.created_le hle)

/-- A fresh store answers any operation after any others as its history says. -/
theorem refines_after (ops : List Operation) : Refines (history ops) (after ops) :=
  (tracks_after ops).refines

theorem created_perform_replicate {n : Nat} (hn : s.created + n ≤ Int32.maxValue.toInt.toNat) :
    (s.perform (List.replicate n .create)).2.created = s.created + n := by
  induction n generalizing s with
  | zero => rfl
  | succ n ih =>
    have room : s.created < Int32.maxValue.toInt.toNat := by omega
    have hroom : s.created + 1 + n ≤ Int32.maxValue.toInt.toNat := by omega
    rw [List.replicate_succ, perform, perform_create_of_lt room]
    exact (ih hroom).trans (Nat.succ_add_eq_add_succ s.created n)

/-- The numbers last for as many creations as there are. -/
theorem perform_create_after_replicate {n : Nat} (hn : n = Int32.maxValue.toInt.toNat) :
    (Operation.create.perform (after (List.replicate n .create))).1 = .failed .quota := by
  have hfull : initial.created + n = n := Nat.zero_add n
  exact perform_create_failed_iff.mpr
    ((created_perform_replicate (hfull.trans hn).le).trans (hfull.trans hn))

/-- A property that is deleted and added again moves to the end; the last object there can be is
followed by none. -/
theorem refines_after_readded_exhausted :
    ((Operation.propertyNames 0).perform (after [.create, .addProperty 0 "a" (.integer 1),
      .addProperty 0 "b" (.integer 2), .deleteProperty 0 "a",
      .addProperty 0 "a" (.integer 3)])).1 = .names ["b", "a"] ∧
    ∀ more, (Operation.create.perform
      ((after (List.replicate 2147483647 .create)).perform more).2).1 = .failed .quota := by
  constructor
  · rw [(refines_after _).answers]
    cbv
  · exact (refines_after _).exhausted (perform_create_after_replicate (by decide))

end MooScript.Store
