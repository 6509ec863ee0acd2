import MooScript.Value
import MooScript.Word

/-! Values with neighbours: booleans, characters, integers and objects. -/
namespace MooScript

inductive Ordinal
  | boolean (b : Bool)
  | character (c : Char)
  | integer (n : Int64)
  | object (id : ObjectId)
  deriving DecidableEq

def Value.ordinal? : Value → Option Ordinal
  | boolean b => some (.boolean b)
  | character c => some (.character c)
  | integer n => some (.integer n)
  | object id => some (.object id)
  | _ => none

/-- The character of a code point. -/
def Value.ofCodePoint? (n : Int) : Option Value :=
  if 0 ≤ n ∧ n.toNat.isValidChar then some (character (Char.ofNat n.toNat)) else none

namespace Ordinal

def kind : Ordinal → ValueKind
  | boolean _ => .boolean
  | character _ => .character
  | integer _ => .integer
  | object _ => .object

/-- The number of an ordinal among those of its kind: a character's is its code point. -/
def position : Ordinal → Int
  | boolean b => if b then 1 else 0
  | character c => c.toNat
  | integer n => n.toInt
  | object id => id.toInt

/-- The value at a position of a kind, if there is one. -/
def valueAt? (kind : ValueKind) (n : Int) : Option Value :=
  match kind with
  | .boolean =>
    if n = 0 then some (.boolean false) else if n = 1 then some (.boolean true) else none
  | .character => Value.ofCodePoint? n
  | .integer => (Word.int64? n).map .integer
  | .object => (Word.int32? n).map .object
  | _ => none

/-- The next value. Booleans cycle and integers wrap; a kind without either ends in an error. -/
def succ (a : Ordinal) : Value :=
  match a with
  | boolean b => .boolean (!b)
  | integer n => .integer (n + 1)
  | _ => (valueAt? a.kind (a.position + 1)).getD (.error .range)

def pred (a : Ordinal) : Value :=
  match a with
  | boolean b => .boolean (!b)
  | integer n => .integer (n - 1)
  | _ => (valueAt? a.kind (a.position - 1)).getD (.error .range)

def ord (a : Ordinal) : Value := .integer (Int64.ofInt a.position)

def chr (a : Ordinal) : Value := (Value.ofCodePoint? a.position).getD (.error .invalidArgument)

/-- Only ordinals of one kind have an order. -/
def compare? (a b : Ordinal) : Option Ordering :=
  if a.kind = b.kind then some (compare a.position b.position) else none

def toValue : Ordinal → Value
  | boolean b => .boolean b
  | character c => .character c
  | integer n => .integer n
  | object id => .object id

/-- The value at the position of one of two ordinals of a kind, of the first if it keeps its place
by the order of the two. -/
def pick (keepsFirst : Ordering → Bool) (a b : Ordinal) : Value :=
  match a.compare? b with
  | none => .error .type
  | some o =>
    let position := if keepsFirst o then a.position else b.position
    (valueAt? a.kind position).getD (.error .type)

def min : Ordinal → Ordinal → Value := pick Ordering.isLE

def max : Ordinal → Ordinal → Value := pick Ordering.isGE

/-- The values of a kind at `count` positions from `lo` on. -/
def run (kind : ValueKind) (lo : Int) (count : Nat) : List Value :=
  (List.range count).filterMap fun (i : Nat) => valueAt? kind (lo + i)

/-- The list of all values from `a` to `b`. The quota counts positions, also those that no
character has. -/
def range (a b : Value) (limit : Nat) : Value :=
  match a.ordinal?, b.ordinal? with
  | some lo, some hi =>
    if lo.kind ≠ hi.kind then .error .type
    else
      let count := (hi.position - lo.position + 1).toNat
      if limit < count then .error .quota else .list (run lo.kind lo.position count)
  | _, _ => .error .type

end Ordinal
end MooScript
