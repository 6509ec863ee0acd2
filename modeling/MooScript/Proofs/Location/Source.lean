import MooScript.Proofs.Location.Table

/-! Where stretches of a source text stand, and how they are found by their offsets. -/
namespace MooScript

variable {pre post text : List Char}

namespace Location

/-- The place of `text` in a source that goes `pre ++ text ++ post`. -/
def between (pre text : List Char) : Location :=
  let start := Cursor.start.after pre
  ⟨start.position, start.offset, (start.after text).offset⟩

/-- The location is that of a stretch of the source. -/
def StandsIn (l : Location) (source : String) : Prop :=
  ∃ pre text post, source.toList = pre ++ (text ++ post) ∧ l = between pre text

/-- What a reader of an error relies on: the marked bytes are inside the source, they are whole
characters, and line and column are those of the first of them. -/
structure Marks (l : Location) (source : String) : Prop where
  inside : l.span.start + l.span.length ≤ source.utf8ByteSize
  start_isValid : String.Pos.Raw.IsValid source ⟨l.span.start⟩
  stop_isValid : String.Pos.Raw.IsValid source ⟨l.span.start + l.span.length⟩
  position : (LineIndex.ofSource source).position? l.span.start = some l.position

theorem between_start (pre text : List Char) :
    (between pre text).span.start = (String.ofList pre).utf8ByteSize := by
  change (Cursor.start.after pre).offset = _
  rw [Cursor.after_offset]
  exact Nat.zero_add _

theorem between_stop (pre text : List Char) :
    (between pre text).span.start + (between pre text).span.length =
      (String.ofList (pre ++ text)).utf8ByteSize := by
  have hstop : (between pre text).span.stop =
      (between pre text).span.start + (String.ofList text).utf8ByteSize :=
    Cursor.after_offset _ text
  rw [Span.length, hstop, between_start, String.ofList_append, String.utf8ByteSize_append]
  omega

theorem isValid_of_append {source : String} (h : source.toList = pre ++ post) :
    String.Pos.Raw.IsValid source ⟨(String.ofList pre).utf8ByteSize⟩ := by
  refine String.Pos.Raw.isValid_iff_exists_append.mpr
    ⟨String.ofList pre, String.ofList post, ?_, rfl⟩
  rw [← String.ofList_append, ← h, String.ofList_toList]

theorem StandsIn.marks {l : Location} {source : String} (h : l.StandsIn source) :
    l.Marks source := by
  obtain ⟨pre, text, post, hsource, rfl⟩ := h
  have hstop : String.Pos.Raw.IsValid source
      ⟨(between pre text).span.start + (between pre text).span.length⟩ := by
    rw [between_stop]
    have hsplit : source.toList = (pre ++ text) ++ post := by rw [hsource, List.append_assoc]
    exact isValid_of_append hsplit
  refine ⟨hstop.le_rawEndPos, ?_, hstop, ?_⟩
  · rw [between_start]
    exact isValid_of_append hsource
  · rw [between_start]
    exact LineIndex.position?_after hsource

end Location
end MooScript
