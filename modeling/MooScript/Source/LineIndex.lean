import MooScript.Source

/-! Positions looked up in a table of the lines of a source text. -/
namespace MooScript

/-- A source text, and where its lines begin, in their order. -/
structure LineIndex where
  source : String
  starts : Array Nat

namespace LineIndex

/-- The offsets right behind the line feeds of a text that begins at `offset`. -/
def behindFeeds (offset : Nat) : List Char → List Nat
  | [] => []
  | c :: cs =>
    if c = '\n' then (offset + c.utf8Size) :: behindFeeds (offset + c.utf8Size) cs
    else behindFeeds (offset + c.utf8Size) cs

def ofSource (source : String) : LineIndex :=
  ⟨source, (0 :: behindFeeds 0 source.toList).toArray⟩

/-- Of the lines from `low` up to `high` the one that begins at the offset, or else the first that
begins behind it. There is no answer if a line is looked up that does not exist. -/
def search? (starts : Array Nat) (offset low high : Nat) : Option (Except Nat Nat) :=
  if low < high then
    let middle := low + (high - low) / 2
    match starts[middle]? with
    | none => none
    | some start =>
      if start = offset then some (.ok middle)
      else if start < offset then search? starts offset (middle + 1) high
      else search? starts offset low middle
  else some (.error low)
termination_by high - low
decreasing_by all_goals omega

/-- The line that an offset is in: it begins there, or the next one is the first behind. -/
def line? (index : LineIndex) (offset : Nat) : Option Nat :=
  match search? index.starts offset 0 index.starts.size with
  | some (.ok line) => some line
  | some (.error (next + 1)) => some next
  | some (.error 0) | none => none

/-- How many characters the first `size` bytes are, if they are whole ones. -/
def countTo? (size : Nat) : List Char → Option Nat
  | [] => if size = 0 then some 0 else none
  | c :: cs =>
    if size = 0 then some 0
    else if size < c.utf8Size then none
    else (countTo? (size - c.utf8Size) cs).map (· + 1)

/-- How many characters stand from one offset to another, if both are between characters. -/
def countBetween? (source : String) (start stop : Nat) : Option Nat :=
  match countTo? start source.toList, countTo? stop source.toList with
  | some before, some through => if start ≤ stop then some (through - before) else none
  | _, _ => none

/-- How far behind the beginning of its line an offset is: in characters, or in bytes if it stands
inside a character. -/
def width? (source : String) (start offset : Nat) : Option Nat :=
  match countBetween? source start offset with
  | some count => some count
  | none => if start ≤ offset then some (offset - start) else none

/-- The position of a byte offset; beyond the end it is that of the end. -/
def position? (index : LineIndex) (offset : Nat) : Option Position := do
  let offset := min offset index.source.utf8ByteSize
  let line ← index.line? offset
  let start ← index.starts[line]?
  let width ← width? index.source start offset
  return ⟨line + 1, width + 1⟩

end LineIndex
end MooScript
