/-! Places in a source text: byte ranges, lines and columns. -/
namespace MooScript

/-- A half-open range of bytes. -/
structure Span where
  start : Nat
  stop : Nat
  deriving DecidableEq

namespace Span

/-- The empty range at `offset`. -/
def point (offset : Nat) : Span := ⟨offset, offset⟩

/-- A range that stops before it starts is empty. -/
def length (s : Span) : Nat := s.stop - s.start

def isEmpty (s : Span) : Bool := s.length == 0

end Span

/-- Line and column, counted from 1; a column is a character. -/
structure Position where
  line : Nat
  column : Nat
  deriving DecidableEq

def Position.text (p : Position) : String := toString p.line ++ ":" ++ toString p.column

/-- What an error points at. -/
structure Location where
  position : Position
  span : Span
  deriving DecidableEq

/-- A place between two characters of a text that is read from left to right. -/
structure Cursor where
  offset : Nat
  position : Position
  deriving DecidableEq

namespace Cursor

def start : Cursor := ⟨0, 1, 1⟩

/-- The place after `c`: a line feed opens a line. -/
def next (place : Cursor) (c : Char) : Cursor :=
  if c = '\n' then ⟨place.offset + c.utf8Size, place.position.line + 1, 1⟩
  else ⟨place.offset + c.utf8Size, place.position.line, place.position.column + 1⟩

def after (place : Cursor) (cs : List Char) : Cursor := cs.foldl next place

end Cursor

/-- Finds `offset` in `cs`, a text entered `width` bytes into a line, at `position`. -/
def Position.locate : List Char → (offset : Nat) → (position : Position) → (width : Nat) → Position
  | [], _, position, _ => position
  | c :: cs, offset, position, width =>
    if offset = 0 then position
    else if offset < c.utf8Size then ⟨position.line, width + offset + 1⟩
    else if c = '\n' then locate cs (offset - c.utf8Size) ⟨position.line + 1, 1⟩ 0
    else locate cs (offset - c.utf8Size) ⟨position.line, position.column + 1⟩ (width + c.utf8Size)

/-- The position of a byte offset; beyond the end it is that of the end, and an offset inside a
character counts the bytes of its line. -/
def Position.ofOffset (source : String) (offset : Nat) : Position :=
  locate source.toList offset ⟨1, 1⟩ 0

end MooScript
