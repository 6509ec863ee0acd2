import Mathlib
import MooScript.Proofs.Builtin.Domain
import MooScript.Proofs.Clean.Builtin
import MooScript.Proofs.Evaluation.CallFree
import MooScript.Proofs.Store.Refinement

/-! What calls do to a store. A standard function either changes nothing, or makes one object, or
changes the one that it is given; without calls nothing changes. -/
namespace MooScript

namespace Store

variable {s s' : Store} {id : ObjectId}

/-- Apart from one object, a store is as it was. -/
structure DiffersAt (id : ObjectId) (s s' : Store) : Prop where
  created : s'.created = s.created
  others : s'.objects.erase id = s.objects.erase id

theorem differsAt_setProperties (s : Store) (id : ObjectId) (props : Properties) :
    DiffersAt id s (s.setProperties id props) :=
  ⟨rfl, Table.erase_insert⟩

theorem differsAt_recycle (h : s.recycle id = .ok s') : DiffersAt id s s' := by
  obtain ⟨props, found, _⟩ := exists_get?_of_bind h
  rw [recycle_of_get? found] at h
  cases h
  exact ⟨rfl, Table.erase_erase⟩

theorem differsAt_addProperty {name : String} {value : Value}
    (h : s.addProperty id name value = .ok s') : DiffersAt id s s' := by
  obtain ⟨props, found, _⟩ := exists_get?_of_bind h
  rw [addProperty_of_get? found] at h
  split at h
  next => cases h
  next =>
    cases h
    exact differsAt_setProperties s id _

theorem differsAt_deleteProperty {name : String} (h : s.deleteProperty id name = .ok s') :
    DiffersAt id s s' := by
  obtain ⟨props, found, _⟩ := exists_get?_of_bind h
  rw [deleteProperty_of_get? found] at h
  split at h
  next =>
    cases h
    exact differsAt_setProperties s id _
  next => cases h

/-- The number that the next object gets is not in use. -/
theorem get?_created_after (ops : List Operation) :
    (after ops).objects.get? (.ofNat (after ops).created) = none := by
  have hnew := toInt_ofNat_of_le (after ops).created_le
  cases found : (after ops).objects.get? (.ofNat (after ops).created) with
  | none => rfl
  | some props => exact absurd rfl ((tracks_after ops).ne_of_unborn found hnew.ge)

end Store

namespace Builtin

variable {name : String} {f : Builtin} {args : List Value} {s : Store}

/-- What can come of a call of the standard function of a name. -/
structure Contained (f : Builtin) (name : String) (args : List Value) (s : Store) : Prop where
  /-- Arguments that the function does not take are invalid, and change nothing. -/
  rejects : ¬ Takes name args → f args s = (.error .invalidArgument, s)
  /-- With an error nothing has changed. -/
  atomic : ∀ code, (f args s).1 = .error code → (f args s).2 = s
  /-- All but four functions only read. -/
  reads : name ∉ ["create", "recycle", "add_property", "delete_property"] → (f args s).2 = s
  /-- Three of them change the object they name, which is their first argument. -/
  changes : name ∈ ["recycle", "add_property", "delete_property"] → (f args s).2 = s ∨
    ∃ id others, args = .object id :: others ∧ s.DiffersAt id (f args s).2
  /-- A new object comes last, has a number that none had before, and has no properties. -/
  creates : name = "create" → (f args s).2 = s ∨
    ∃ id, (f args s).1 = .object id ∧ id.toInt = s.created ∧ s.isValid id = false ∧
      (f args s).2.created = s.created + 1 ∧
      (f args s).2.objects.entries = s.objects.entries ++ [(id, .empty)]

theorem contained_of_reads (guarded : Guarded name f) (h : (f args s).2 = s) :
    Contained f name args s where
  rejects := guarded args s
  atomic _ _ := h
  reads _ := h
  changes _ := .inl h
  creates _ := .inl h

/-- The function acts on the object that is the first of its arguments. -/
def ActsOnFirst (f : Builtin) : Prop := ∀ (args : List Value) (s : Store),
  f args s = (invalid, s) ∨ ∃ id others r, args = .object id :: others ∧ f args s = done s r ∧
    ∀ s', r = .ok s' → s.DiffersAt id s'

theorem contained_of_actsOnFirst (hname : name ∈ ["recycle", "add_property", "delete_property"])
    (guarded : Guarded name f) (h : ActsOnFirst f) : Contained f name args s := by
  have hchanges : name ∈ ["create", "recycle", "add_property", "delete_property"] :=
    List.mem_cons_of_mem "create" hname
  have hcreate : name ≠ "create" := by
    rintro rfl
    simp at hname
  constructor
  case rejects => exact guarded args s
  case reads => exact fun hreads => absurd hchanges hreads
  case creates => exact fun heq => absurd heq hcreate
  case atomic =>
    intro code hcode
    obtain hf | ⟨id, others, r, _, hf, _⟩ := h args s
    · rw [hf]
    · rw [hf] at hcode ⊢
      cases r with
      | error _ => rfl
      | ok s' => cases hcode
  case changes =>
    intro _
    obtain hf | ⟨id, others, r, hargs, hf, hdiffers⟩ := h args s
    · exact .inl (by rw [hf])
    · rw [hf]
      cases r with
      | error _ => exact .inl rfl
      | ok s' => exact .inr ⟨id, others, hargs, hdiffers s' rfl⟩

theorem actsOnFirst_recycle : ActsOnFirst recycle := by
  intro args s
  unfold recycle
  split
  next _ id => exact .inr ⟨id, [], _, rfl, rfl, fun _ => Store.differsAt_recycle⟩
  next => exact .inl rfl

theorem actsOnFirst_addProperty : ActsOnFirst addProperty := by
  intro args s
  unfold addProperty
  split
  next _ id property value =>
    exact .inr ⟨id, [.string property, value], _, rfl, rfl, fun _ => Store.differsAt_addProperty⟩
  next => exact .inl rfl

theorem actsOnFirst_deleteProperty : ActsOnFirst deleteProperty := by
  intro args s
  unfold deleteProperty
  split
  next _ id property =>
    exact .inr ⟨id, [.string property], _, rfl, rfl, fun _ => Store.differsAt_deleteProperty⟩
  next => exact .inl rfl

/-- No number is given twice, so a new object can take the place of none. -/
theorem contained_create (args : List Value) (ops : List Store.Operation) :
    Contained create "create" args (.after ops) := by
  cases args with
  | cons arg args => exact contained_of_reads guarded_create rfl
  | nil =>
    have hunborn := Store.get?_created_after ops
    have hnew := Store.toInt_ofNat_of_le (Store.after ops).created_le
    generalize Store.after ops = s at hunborn hnew
    rcases Nat.lt_or_eq_of_le s.created_le with room | full
    · have hcreate : create [] s = (.object (.ofNat s.created),
          ⟨s.created + 1, room, s.objects.insert (.ofNat s.created) .empty⟩) := by
        simp only [create, Store.create, dif_pos room]
      constructor
      case rejects => exact guarded_create [] s
      case reads => exact fun hreads => absurd List.mem_cons_self hreads
      case changes => simp
      case atomic =>
        rw [hcreate]
        exact fun code hcode => Value.noConfusion hcode
      case creates =>
        rw [hcreate]
        refine fun _ => .inr ⟨_, rfl, hnew, ?_, rfl, ?_⟩
        · rw [Store.isValid_eq, hunborn, Option.isSome_none]
        · exact Table.entries_insert_of_not_mem (Table.get?_eq_none_iff.mp hunborn) _
    · refine contained_of_reads guarded_create ?_
      simp only [create, Store.create, dif_neg (Nat.not_lt_of_ge full.ge)]

theorem contained_of_mem_standard (args : List Value) (ops : List Store.Operation) :
    ∀ e ∈ standard, Contained e.2 e.1 args (.after ops) := by
  rw [standard, List.forall_mem_append]
  constructor
  · simp only [List.forall_mem_cons]
    exact ⟨contained_of_reads guarded_typeof rfl,
      contained_of_reads guarded_valid rfl,
      contained_of_reads guarded_pickle rfl,
      contained_of_reads guarded_unpickle rfl,
      contained_of_reads guarded_maxObject rfl,
      contained_create args ops,
      contained_of_actsOnFirst (by simp) guarded_recycle actsOnFirst_recycle,
      contained_of_actsOnFirst (by simp) guarded_addProperty actsOnFirst_addProperty,
      contained_of_actsOnFirst (by simp) guarded_deleteProperty actsOnFirst_deleteProperty,
      contained_of_reads guarded_getProperty rfl,
      contained_of_reads guarded_properties rfl,
      contained_of_reads (guarded_onAggregate (by simp)) rfl,
      contained_of_reads (guarded_onAggregate (by simp)) rfl,
      contained_of_reads (guarded_onAggregate (by simp)) rfl,
      contained_of_reads guarded_tostr rfl,
      contained_of_reads guarded_chr rfl,
      contained_of_reads (guarded_onOrdinal (by simp)) rfl,
      contained_of_reads (guarded_onOrdinal (by simp)) rfl,
      contained_of_reads (guarded_onOrdinal (by simp)) rfl,
      contained_of_reads (guarded_onPair (by simp) fun _ _ => Value.min_of_not_comparable) rfl,
      contained_of_reads (guarded_onPair (by simp) fun _ _ => Value.max_of_not_comparable) rfl,
      List.forall_mem_nil _⟩
  · intro e he
    obtain ⟨f, _, rfl⟩ := List.mem_map.mp he
    exact contained_of_reads (guarded_math f) rfl

end Builtin

/-- The standard functions fail as data: what they do not take is an invalid argument, and an error
leaves the store as it was. All but four only read, and those change one object. Without calls
nothing reaches the store, whatever functions there are. -/
theorem Builtins.standard_contained :
    (∀ (name : String) (f : Builtin), Builtins.standard.find? name = some f →
      ∀ (args : List Value) (ops : List Store.Operation),
        f.Contained name args (Store.after ops)) ∧
    ∀ (host : Host) (m : Machine),
      (∀ e : Expr, e.CallFree → ((e.eval host).run m).2.store = m.store) ∧
      ∀ s : Stmt, s.CallFree →
        ((s.exec host).run m).2.store = m.store ∧ (s.run host m).2.store = m.store := by
  refine ⟨fun name f found args ops => ?_, fun host m => ⟨fun e h => ?_, fun s h => ⟨?_, ?_⟩⟩⟩
  · exact Builtin.contained_of_mem_standard args ops (name, f) (mem_of_find? found)
  · exact e.store_eval_of_callFree host h m
  · exact s.store_exec_of_callFree host h m
  · exact s.store_run_of_callFree host h m

/-- An argument too many, an object that is not there, and an assignment. -/
theorem Builtins.standard_contained_recycle :
    let t : Token := .endOfInput none
    let assign : Stmt :=
      .expr (.binary .assign (.identifier "x" t) (.literal (.integer 1) t) t)
    let two : List Value := [.object 0, .object 1]
    let m : Machine := ⟨⟨[], .empty⟩, .initial⟩
    let s : Store := Store.after [.create, .create]
    (¬ Builtin.Takes "recycle" two ∧
      Builtin.recycle two s = (.error .invalidArgument, s)) ∧
    ((Builtin.recycle [.object 2] s).1 = .error .invalidIndirection ∧
      (Builtin.recycle [.object 2] s).2 = s) ∧
    (assign.CallFree ∧ (assign.run ⟨10, .standard⟩ m).2.store = m.store) := by
  intro t assign two m s
  have found : Builtins.standard.find? "recycle" = some Builtin.recycle := by cbv
  obtain ⟨hcalls, htrees⟩ := standard_contained
  have htwo : ¬ Builtin.Takes "recycle" [.object 0, .object 1] := by
    intro h
    generalize hname : "recycle" = name at h
    cases h with
    | tostr => simp at hname
    | pair hpair => simp [← hname] at hpair
  have hfree : assign.CallFree := ⟨trivial, trivial⟩
  refine ⟨⟨htwo, (hcalls "recycle" _ found two _).rejects htwo⟩, ?_, hfree, ?_⟩
  · have herror : (Builtin.recycle [.object 2] s).1 = .error .invalidIndirection := by cbv
    exact ⟨herror, (hcalls "recycle" _ found [.object 2] _).atomic _ herror⟩
  · exact ((htrees ⟨10, .standard⟩ m).2 assign hfree).2

end MooScript
