import MooScript.Builtin.Standard
import MooScript.Proofs.Clean.Value
import MooScript.Proofs.Store.Operation

/-! The standard functions, called with clean values on a store that holds clean values, give clean
values and leave such a store. -/
namespace MooScript

open Value

/-! Tables of values, and the store. -/

def Table.Clean (t : Table String Value) : Prop := ∀ value ∈ t.values, value.Clean

theorem Table.clean_empty : (Table.empty : Table String Value).Clean := List.forall_mem_nil _

theorem Table.Clean.insert {t : Table String Value} (h : t.Clean) (name : String) {value : Value}
    (hvalue : value.Clean) : (t.insert name value).Clean :=
  Table.forall_mem_values_insert h hvalue

theorem Table.Clean.get? {t : Table String Value} (h : t.Clean) {name : String} {value : Value}
    (hvalue : t.get? name = some value) : value.Clean :=
  h value (Table.mem_values_of_get? hvalue)

theorem Table.clean_ofList {entries : List (String × Value)} (h : ∀ e ∈ entries, e.2.Clean) :
    (Table.ofList entries).Clean := by
  intro value hvalue
  obtain ⟨name, hentry⟩ := Table.mem_values_iff.mp hvalue
  exact h (name, value) (Table.mem_entries_ofList hentry)

/-- All values of all properties are clean. -/
def Store.Clean (s : Store) : Prop := ∀ properties ∈ s.objects.values, properties.Clean

namespace Store

variable {s s' : Store} {id : ObjectId} {name : String} {value : Value} {props : Properties}

theorem clean_initial : initial.Clean := List.forall_mem_nil _

theorem Clean.get? (hs : s.Clean) (found : s.objects.get? id = some props) : props.Clean :=
  hs props (Table.mem_values_of_get? found)

theorem Clean.setProperties (hs : s.Clean) (id : ObjectId) (hprops : props.Clean) :
    (s.setProperties id props).Clean :=
  Table.forall_mem_values_insert hs hprops

theorem Clean.create (hs : s.Clean) (h : s.create = .ok (id, s')) : s'.Clean := by
  unfold Store.create at h
  split at h
  next =>
    cases h
    exact Table.forall_mem_values_insert hs Table.clean_empty
  next => cases h

theorem Clean.recycle (hs : s.Clean) (h : s.recycle id = .ok s') : s'.Clean := by
  obtain ⟨props, found, _⟩ := exists_get?_of_bind h
  rw [recycle_of_get? found] at h
  cases h
  exact Table.forall_mem_values_erase hs

theorem Clean.addProperty (hs : s.Clean) (hvalue : value.Clean)
    (h : s.addProperty id name value = .ok s') : s'.Clean := by
  obtain ⟨props, found, _⟩ := exists_get?_of_bind h
  rw [addProperty_of_get? found] at h
  split at h
  next => cases h
  next =>
    cases h
    exact hs.setProperties id ((hs.get? found).insert name hvalue)

theorem Clean.deleteProperty (hs : s.Clean) (h : s.deleteProperty id name = .ok s') :
    s'.Clean := by
  obtain ⟨props, found, _⟩ := exists_get?_of_bind h
  rw [deleteProperty_of_get? found] at h
  split at h
  next =>
    cases h
    exact hs.setProperties id (Table.forall_mem_values_erase (hs.get? found))
  next => cases h

theorem Clean.property (hs : s.Clean) (h : s.property id name = .ok value) : value.Clean := by
  obtain ⟨props, found, _⟩ := exists_get?_of_bind h
  rw [property_of_get? found] at h
  split at h
  next value' hname =>
    cases h
    exact (hs.get? found).get? hname
  next => cases h

end Store

namespace Builtin

/-- Clean arguments and a clean store give a clean value and a clean store. -/
def KeepsClean (f : Builtin) : Prop := ∀ (args : List Value) (s : Store),
  (∀ arg ∈ args, arg.Clean) → s.Clean → (f args s).1.Clean ∧ (f args s).2.Clean

variable {args : List Value} {s : Store}

theorem keepsClean_pure {f : List Value → Value}
    (h : ∀ args, (∀ arg ∈ args, arg.Clean) → (f args).Clean) : KeepsClean (pure f) :=
  fun args _ hargs hs => ⟨h args hargs, hs⟩

theorem keepsClean_query {f : List Value → Store → Value}
    (h : ∀ args s, s.Clean → (f args s).Clean) : KeepsClean (query f) :=
  fun args s _ hs => ⟨h args s hs, hs⟩

theorem clean_done {r : Except ErrorCode Store} (hs : s.Clean)
    (h : ∀ s', r = .ok s' → s'.Clean) : (done s r).1.Clean ∧ (done s r).2.Clean := by
  cases r with
  | error code => exact ⟨clean_error code, hs⟩
  | ok s' => exact ⟨clean_integer 0, h s' rfl⟩

theorem clean_invalid : invalid.Clean := clean_error .invalidArgument

theorem clean_onOrdinal {f : Ordinal → Value} (h : ∀ a, (f a).Clean) (args : List Value) :
    (onOrdinal f args).Clean := by
  unfold onOrdinal
  split
  next value => exact clean_getD_map fun a _ => h a
  next => exact clean_invalid

theorem clean_onNumber {f : Number → Value} (h : ∀ a, (f a).Clean) (args : List Value) :
    (onNumber f args).Clean := by
  unfold onNumber
  split
  next value => exact clean_getD_map fun a _ => h a
  next => exact clean_invalid

theorem clean_onAggregate {f : Aggregate → Value}
    (h : ∀ a : Aggregate, (∀ item ∈ a.items, item.Clean) → (f a).Clean)
    (hargs : ∀ arg ∈ args, arg.Clean) : (onAggregate f args).Clean := by
  unfold onAggregate
  split
  next value =>
    have hvalue := hargs value List.mem_cons_self
    exact clean_getD_map fun a ha => h a (Aggregate.clean_items hvalue ha)
  next => exact clean_invalid

theorem clean_onPair {f : Value → Value → Value} (h : ∀ a b, (f a b).Clean) (args : List Value) :
    (onPair f args).Clean := by
  unfold onPair
  split
  next a b =>
    split
    next => exact clean_invalid
    next => exact h a b
  next => exact clean_invalid

theorem clean_first {a : Aggregate} (h : ∀ item ∈ a.items, item.Clean) : (first a).Clean := by
  unfold first
  split
  next => exact clean_invalid
  next => exact Aggregate.clean_at_ h 0

theorem clean_rest {a : Aggregate} (h : ∀ item ∈ a.items, item.Clean) : (rest a).Clean := by
  unfold rest
  split
  next => exact clean_invalid
  next => exact Aggregate.clean_rest h

theorem clean_typeof (args : List Value) : (typeof args).Clean := by
  unfold typeof
  split
  next => exact clean_integer _
  next => exact clean_invalid

theorem clean_pickle (args : List Value) : (pickle args).Clean := by
  unfold pickle
  split
  next =>
    split
    next bytes _ =>
      refine clean_list.mpr fun item hitem => ?_
      obtain ⟨b, _, rfl⟩ := List.mem_map.mp hitem
      exact clean_integer _
    next => exact clean_invalid
  next => exact clean_invalid

/-- Any list of bytes may come; the decoder lets no other value through. -/
theorem clean_unpickle (args : List Value) : (unpickle args).Clean := by
  unfold unpickle
  split
  next items =>
    split
    next bytes _ =>
      split
      next value hvalue => exact clean_of_decode hvalue
      next => exact clean_invalid
    next => exact clean_invalid
  next => exact clean_invalid

theorem clean_chr (args : List Value) : (chr args).Clean := by
  unfold chr
  split
  next n => exact (Ordinal.integer n).clean_chr
  next => exact clean_invalid

theorem clean_valid (args : List Value) (s : Store) : (valid args s).Clean := by
  unfold valid
  split
  next id => exact clean_boolean _
  next => exact clean_invalid

theorem clean_maxObject (args : List Value) (s : Store) : (maxObject args s).Clean := by
  unfold maxObject
  split
  next => exact clean_object _
  next => exact clean_invalid

theorem clean_getProperty (args : List Value) (hs : s.Clean) : (getProperty args s).Clean := by
  unfold getProperty
  split
  next id name =>
    cases hvalue : s.property id name with
    | error code => exact clean_error code
    | ok value => exact hs.property hvalue
  next => exact clean_invalid

theorem clean_properties (args : List Value) (s : Store) : (properties args s).Clean := by
  unfold properties
  split
  next id =>
    cases s.propertyNames id with
    | error code => exact clean_error code
    | ok names =>
      refine clean_list.mpr fun item hitem => ?_
      obtain ⟨name, _, rfl⟩ := List.mem_map.mp hitem
      exact clean_string name
  next => exact clean_invalid

theorem keepsClean_create : KeepsClean create := by
  intro args s _ hs
  unfold create
  split
  next =>
    cases hcreate : s.create with
    | error code => exact ⟨clean_error code, hs⟩
    | ok created => exact ⟨clean_object created.1, hs.create hcreate⟩
  next => exact ⟨clean_invalid, hs⟩

theorem keepsClean_recycle : KeepsClean recycle := by
  intro args s _ hs
  unfold recycle
  split
  next => exact clean_done hs fun _ => hs.recycle
  next => exact ⟨clean_invalid, hs⟩

theorem keepsClean_addProperty : KeepsClean addProperty := by
  intro args s hargs hs
  unfold addProperty
  split
  next id name value =>
    have hvalue : value.Clean := hargs value (by simp)
    exact clean_done hs fun _ => hs.addProperty hvalue
  next => exact ⟨clean_invalid, hs⟩

theorem keepsClean_deleteProperty : KeepsClean deleteProperty := by
  intro args s _ hs
  unfold deleteProperty
  split
  next => exact clean_done hs fun _ => hs.deleteProperty
  next => exact ⟨clean_invalid, hs⟩

theorem keepsClean_of_mem_standard : ∀ e ∈ standard, KeepsClean e.2 := by
  rw [standard, List.forall_mem_append]
  constructor
  · simp only [List.forall_mem_cons]
    exact ⟨keepsClean_pure fun args _ => clean_typeof args,
      keepsClean_query fun args s _ => clean_valid args s,
      keepsClean_pure fun args _ => clean_pickle args,
      keepsClean_pure fun args _ => clean_unpickle args,
      keepsClean_query fun args s _ => clean_maxObject args s,
      keepsClean_create,
      keepsClean_recycle,
      keepsClean_addProperty,
      keepsClean_deleteProperty,
      keepsClean_query fun args _ => clean_getProperty args,
      keepsClean_query fun args s _ => clean_properties args s,
      keepsClean_pure fun _ => clean_onAggregate fun _ _ => clean_integer _,
      keepsClean_pure fun _ => clean_onAggregate fun _ => clean_first,
      keepsClean_pure fun _ => clean_onAggregate fun _ => clean_rest,
      keepsClean_pure fun _ _ => clean_string _,
      keepsClean_pure fun args _ => clean_chr args,
      keepsClean_pure fun args _ => clean_onOrdinal (fun _ => clean_integer _) args,
      keepsClean_pure fun args _ => clean_onOrdinal Ordinal.clean_succ args,
      keepsClean_pure fun args _ => clean_onOrdinal Ordinal.clean_pred args,
      keepsClean_pure fun args _ => clean_onPair Value.clean_min args,
      keepsClean_pure fun args _ => clean_onPair Value.clean_max args,
      List.forall_mem_nil _⟩
  · intro e he
    obtain ⟨f, _, rfl⟩ := List.mem_map.mp he
    exact keepsClean_pure fun args _ => clean_onNumber (fun x => clean_ofFloat _) args

end Builtin

theorem Builtins.mem_of_find? {entries : List (String × Builtin)} {name : String} {f : Builtin}
    (h : find? ⟨.ofList entries⟩ name = some f) : (name, f) ∈ entries :=
  Table.mem_entries_ofList (Table.get?_eq_some_iff.mp h)

theorem Builtins.keepsClean_standard {name : String} {f : Builtin}
    (h : Builtins.standard.find? name = some f) : f.KeepsClean :=
  Builtin.keepsClean_of_mem_standard (name, f) (mem_of_find? h)

end MooScript
