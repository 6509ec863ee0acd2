import Mathlib
import MooScript.Proofs.Table
import MooScript.Store

/-! What the operations of a store do to an object that is there, and to one that is not. -/
namespace MooScript.Store

variable {s : Store} {id : ObjectId} {props : Properties}

theorem isValid_eq : s.isValid id = (s.objects.get? id).isSome := Table.contains_eq

theorem properties_of_get? (found : s.objects.get? id = some props) :
    s.properties id = .ok props := by
  rw [properties, found]

theorem properties_of_not_valid (dead : s.isValid id = false) :
    s.properties id = .error .invalidIndirection := by
  rw [isValid_eq, Option.isSome_eq_false_iff, Option.isNone_iff_eq_none] at dead
  rw [properties, dead]

/-- An action on the properties of an object has a result only if the object is there. -/
theorem exists_get?_of_bind {α : Type} {act : Properties → Except ErrorCode α} {a : α}
    (h : (s.properties id >>= act) = .ok a) :
    ∃ props, s.objects.get? id = some props ∧ act props = .ok a := by
  cases found : s.objects.get? id with
  | none =>
    rw [properties, found] at h
    cases h
  | some props =>
    rw [properties_of_get? found] at h
    exact ⟨props, rfl, h⟩

section

variable {name : String} (found : s.objects.get? id = some props)
include found

theorem recycle_of_get? : s.recycle id = .ok { s with objects := s.objects.erase id } := by
  rw [recycle, properties_of_get? found]
  rfl

theorem addProperty_of_get? (value : Value) : s.addProperty id name value =
    if props.contains name then .error .invalidArgument
    else .ok (s.setProperties id (props.insert name value)) := by
  rw [addProperty, properties_of_get? found]
  change (if props.contains name then _ else _) = _
  split <;> rfl

theorem deleteProperty_of_get? : s.deleteProperty id name =
    if props.contains name then .ok (s.setProperties id (props.erase name))
    else .error .propNotFound := by
  rw [deleteProperty, properties_of_get? found]
  rfl

theorem property_of_get? : s.property id name =
    match props.get? name with
    | some value => .ok value
    | none => .error .propNotFound := by
  rw [property, properties_of_get? found]
  rfl

theorem propertyNames_of_get? : s.propertyNames id = .ok props.keys := by
  rw [propertyNames, properties_of_get? found]
  rfl

end

theorem get?_setProperties {id' : ObjectId} : (s.setProperties id props).objects.get? id' =
    if id' = id then some props else s.objects.get? id' :=
  Table.get?_insert

theorem isValid_setProperties {old : Properties} (found : s.objects.get? id = some old)
    (id' : ObjectId) : (s.setProperties id props).isValid id' = s.isValid id' := by
  rw [isValid_eq, isValid_eq, get?_setProperties]
  split
  next hid => rw [hid, found, Option.isSome_some, Option.isSome_some]
  next => rfl

end MooScript.Store
