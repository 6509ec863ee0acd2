import MooScript.Table
import MooScript.Value

/-! Objects and their properties. -/
namespace MooScript

abbrev Properties := Table String Value

/-- The live objects, and how many were ever created: objects are numbered in the order of their
creation, and no number is given twice. -/
structure Store where
  created : Nat := 0
  created_le : created ≤ Int32.maxValue.toInt.toNat := by decide
  objects : Table ObjectId Properties := .empty

namespace Store

def initial : Store := {}

/-- The last object created, or -1. -/
def maxObject (s : Store) : ObjectId := Int32.ofInt ((s.created : Int) - 1)

def isValid (s : Store) (id : ObjectId) : Bool := s.objects.contains id

/-- A new object without properties, as long as there are numbers. -/
def create (s : Store) : Except ErrorCode (ObjectId × Store) :=
  if h : s.created < Int32.maxValue.toInt.toNat then
    let id := Int32.ofNat s.created
    .ok (id, ⟨s.created + 1, h, s.objects.insert id .empty⟩)
  else .error .quota

def properties (s : Store) (id : ObjectId) : Except ErrorCode Properties :=
  match s.objects.get? id with
  | some properties => .ok properties
  | none => .error .invalidIndirection

def setProperties (s : Store) (id : ObjectId) (properties : Properties) : Store :=
  { s with objects := s.objects.insert id properties }

def recycle (s : Store) (id : ObjectId) : Except ErrorCode Store := do
  let _ ← s.properties id
  return { s with objects := s.objects.erase id }

def addProperty (s : Store) (id : ObjectId) (name : String) (value : Value) :
    Except ErrorCode Store := do
  let properties ← s.properties id
  if properties.contains name then throw .invalidArgument
  return s.setProperties id (properties.insert name value)

def deleteProperty (s : Store) (id : ObjectId) (name : String) : Except ErrorCode Store := do
  let properties ← s.properties id
  if properties.contains name then return s.setProperties id (properties.erase name)
  throw .propNotFound

def property (s : Store) (id : ObjectId) (name : String) : Except ErrorCode Value := do
  let properties ← s.properties id
  match properties.get? name with
  | some value => return value
  | none => throw .propNotFound

/-- The names of an object's properties, in the order of their definition. -/
def propertyNames (s : Store) (id : ObjectId) : Except ErrorCode (List String) := do
  let properties ← s.properties id
  return properties.keys

end Store
end MooScript
