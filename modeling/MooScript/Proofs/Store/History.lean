import Mathlib
import MooScript.Store

/-! Histories of a store: what was asked and answered, and what that says of the next answer.

A history knows of no objects and no tables. It counts the creations that succeeded, and reads
everything else off the changes that were reported as done. -/
namespace MooScript.Store

inductive Operation
  | create
  | recycle (id : ObjectId)
  | maxObject
  | isValid (id : ObjectId)
  | addProperty (id : ObjectId) (name : String) (value : Value)
  | deleteProperty (id : ObjectId) (name : String)
  | property (id : ObjectId) (name : String)
  | propertyNames (id : ObjectId)

/-- The numbers of objects are answered as integers without bounds, so that none wraps around
unseen. -/
inductive Answer
  | failed (code : ErrorCode)
  | object (number : Int)
  | truth (b : Bool)
  | done
  | value (v : Value)
  | names (list : List String)

/-- What an action on the store answers, and the store that it leaves. -/
def settle (s : Store) : Except ErrorCode (Answer × Store) → Answer × Store
  | .ok outcome => outcome
  | .error code => (.failed code, s)

def Operation.perform (op : Operation) (s : Store) : Answer × Store :=
  settle s <| match op with
  | create => s.create.map fun (id, s') => (.object id.toInt, s')
  | recycle id => (s.recycle id).map (.done, ·)
  | maxObject => .ok (.object s.maxObject.toInt, s)
  | isValid id => .ok (.truth (s.isValid id), s)
  | addProperty id name value => (s.addProperty id name value).map (.done, ·)
  | deleteProperty id name => (s.deleteProperty id name).map (.done, ·)
  | property id name => (s.property id name).map (.value ·, s)
  | propertyNames id => (s.propertyNames id).map (.names ·, s)

abbrev Event := Operation × Answer

/-- Events from the oldest to the newest. -/
abbrev History := List Event

namespace Event

/-- The number of the object that a successful creation gave. -/
def object? : Event → Option Int
  | (.create, .object n) => some n
  | _ => none

def recycles (id : ObjectId) : Event → Bool
  | (.recycle id', .done) => id' == id
  | _ => false

/-- The property that a successful addition gave to an object. -/
def addition? (id : ObjectId) : Event → Option (String × Value)
  | (.addProperty id' name value, .done) => if id' = id then some (name, value) else none
  | _ => none

/-- Whether an object got or lost a property of the name. -/
def touches (id : ObjectId) (name : String) : Event → Bool
  | (.addProperty id' name' _, .done) => id' == id && name' == name
  | (.deleteProperty id' name', .done) => id' == id && name' == name
  | _ => false

end Event

namespace History

/-- The numbers given to new objects. -/
def objects (h : History) : List Int := h.filterMap Event.object?

/-- How many creations succeeded. -/
def created (h : History) : Nat := h.objects.length

def recycled (h : History) (id : ObjectId) : Bool := h.any (·.recycles id)

/-- Whether a number was given to an object that has not been recycled. -/
def isLive (h : History) (id : ObjectId) : Bool :=
  decide (0 ≤ id.toInt ∧ id.toInt < h.created) && !h.recycled id

/-- The properties of an object, in the order in which they were added: an addition lasts until
something adds or deletes a property of the same name. -/
def defined (id : ObjectId) : History → List (String × Value)
  | [] => []
  | e :: later =>
    ((e.addition? id).toList.filter fun p => !later.any (·.touches id p.1)) ++ defined id later

/-- The answer about an object, if it is live. -/
def ofLive (h : History) (id : ObjectId) (answer : Answer) : Answer :=
  if h.isLive id then answer else .failed .invalidIndirection

/-- The answer to an operation after a history. -/
def answer (h : History) : Operation → Answer
  | .create =>
    if h.created = Int32.maxValue.toInt then .failed .quota else .object h.created
  | .recycle id => h.ofLive id .done
  | .maxObject => .object (h.created - 1)
  | .isValid id => .truth (h.isLive id)
  | .addProperty id name _ => h.ofLive id <|
    match (h.defined id).lookup name with
    | some _ => .failed .invalidArgument
    | none => .done
  | .deleteProperty id name => h.ofLive id <|
    match (h.defined id).lookup name with
    | some _ => .done
    | none => .failed .propNotFound
  | .property id name => h.ofLive id <|
    match (h.defined id).lookup name with
    | some value => .value value
    | none => .failed .propNotFound
  | .propertyNames id => h.ofLive id (.names ((h.defined id).map Prod.fst))

end History

/-- The history that operations make on a store, and the store afterwards. -/
def perform (s : Store) : List Operation → History × Store
  | [] => ([], s)
  | op :: ops =>
    let (answer, s') := op.perform s
    let (h, s'') := s'.perform ops
    ((op, answer) :: h, s'')

/-- The history of a fresh store. -/
def history (ops : List Operation) : History := (initial.perform ops).1

/-- A fresh store after operations. -/
def after (ops : List Operation) : Store := (initial.perform ops).2

namespace History

variable {h : History} {e : Event} {id : ObjectId} {name : String}

theorem objects_concat : objects (h ++ [e]) = h.objects ++ e.object?.toList := by
  rw [objects, objects, List.filterMap_append]
  cases he : e.object? <;> simp [he]

theorem recycled_concat : recycled (h ++ [e]) id = (h.recycled id || e.recycles id) := by
  simp only [recycled, List.any_append, List.any_cons, List.any_nil, Bool.or_false]

/-- A change takes the properties of its name away, and an addition then comes last. -/
theorem defined_concat : defined id (h ++ [e]) =
    ((defined id h).filter fun p => !e.touches id p.1) ++ (e.addition? id).toList := by
  induction h with
  | nil => simp only [List.nil_append, defined, List.any_nil, Bool.not_false, List.filter_true,
      List.append_nil, List.filter_nil]
  | cons first later ih =>
    rw [List.cons_append, defined, defined, ih, List.filter_append, List.append_assoc,
      List.filter_filter]
    congr 2
    funext p
    rw [List.any_append, List.any_cons, List.any_nil, Bool.or_false, Bool.not_or, Bool.and_comm]

theorem isLive_iff : h.isLive id = true ↔
    0 ≤ id.toInt ∧ id.toInt < h.created ∧ h.recycled id = false := by
  simp only [isLive, Bool.and_eq_true, decide_eq_true_eq, Bool.not_eq_true', and_assoc]

/-! What an event says nothing about stays as it was. -/

theorem objects_concat_of_none (hobject : e.object? = none) : objects (h ++ [e]) = h.objects := by
  rw [objects_concat, hobject, Option.toList_none, List.append_nil]

theorem recycled_concat_of_not (hrecycles : e.recycles id = false) :
    recycled (h ++ [e]) id = h.recycled id := by
  rw [recycled_concat, hrecycles, Bool.or_false]

theorem isLive_concat_of_not (hobject : e.object? = none) (hrecycles : e.recycles id = false) :
    isLive (h ++ [e]) id = h.isLive id := by
  rw [isLive, isLive, created, created, objects_concat_of_none hobject,
    recycled_concat_of_not hrecycles]

theorem defined_concat_of_not (haddition : e.addition? id = none)
    (htouches : ∀ name, e.touches id name = false) :
    defined id (h ++ [e]) = h.defined id := by
  simp only [defined_concat, haddition, htouches, Bool.not_false, List.filter_true,
    Option.toList_none, List.append_nil]

end History
end MooScript.Store
