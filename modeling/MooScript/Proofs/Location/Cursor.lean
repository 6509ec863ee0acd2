import Mathlib
import MooScript.Source

/-! Reading up to a place in a text, and finding the place of an offset. -/
namespace MooScript

open String (utf8Len)

variable {place : Cursor} {pre post front line : List Char} {c : Char} {offset : ℕ}

namespace Cursor

@[simp] theorem after_nil (place : Cursor) : place.after [] = place := rfl

@[simp] theorem after_cons (place : Cursor) (c : Char) (cs : List Char) :
    place.after (c :: cs) = (place.next c).after cs := rfl

theorem after_append (place : Cursor) (pre post : List Char) :
    place.after (pre ++ post) = (place.after pre).after post :=
  List.foldl_append

theorem next_offset (place : Cursor) (c : Char) :
    (place.next c).offset = place.offset + c.utf8Size := by
  unfold next
  split <;> rfl

theorem after_offset (place : Cursor) (cs : List Char) :
    (place.after cs).offset = place.offset + (String.ofList cs).utf8ByteSize := by
  induction cs generalizing place with
  | nil => rfl
  | cons c cs ih =>
    rw [after_cons, ih, next_offset, String.ofList_cons, String.utf8ByteSize_append,
      String.utf8ByteSize_singleton]
    omega

/-- The offset plays no part in the position. -/
theorem after_position (place : Cursor) (offset : Nat) (cs : List Char) :
    (Cursor.mk offset place.position |>.after cs).position = (place.after cs).position := by
  induction cs generalizing place offset with
  | nil => rfl
  | cons c cs ih =>
    by_cases hc : c = '\n'
    · simp only [after_cons, next, if_pos hc]
      exact ih ⟨place.offset + c.utf8Size, ⟨place.position.line + 1, 1⟩⟩ _
    · simp only [after_cons, next, if_neg hc]
      exact ih ⟨place.offset + c.utf8Size, ⟨place.position.line, place.position.column + 1⟩⟩ _

end Cursor

/-! ### Texts that end inside a line -/

/-- A text is the lines before its last one, and what there is of that. -/
structure EndsIn (pre front line : List Char) : Prop where
  parts : pre = front ++ line
  opened : front = [] ∨ ∃ earlier, front = earlier ++ ['\n']
  within : '\n' ∉ line

theorem exists_endsIn (pre : List Char) : ∃ front line, EndsIn pre front line := by
  induction pre using List.reverseRecOn with
  | nil => exact ⟨[], [], rfl, .inl rfl, List.not_mem_nil⟩
  | append_singleton pre c ih =>
    obtain ⟨front, line, hparts, hopened, hwithin⟩ := ih
    by_cases hc : c = '\n'
    · subst hc
      exact ⟨pre ++ ['\n'], [], (List.append_nil _).symm, .inr ⟨pre, rfl⟩, List.not_mem_nil⟩
    · refine ⟨front, line ++ [c], by rw [hparts, List.append_assoc], hopened, ?_⟩
      rw [List.mem_append, List.mem_singleton]
      rintro (h | h)
      · exact hwithin h
      · exact hc h.symm

namespace EndsIn

theorem count_eq (h : EndsIn pre front line) : pre.count '\n' = front.count '\n' := by
  rw [h.parts, List.count_append, List.count_eq_zero.mpr h.within, Nat.add_zero]

theorem takeWhile_reverse (h : EndsIn pre front line) :
    pre.reverse.takeWhile (· ≠ '\n') = line.reverse := by
  have hline : ∀ c ∈ line.reverse, decide (c ≠ '\n') = true := by
    intro c hc
    rw [List.mem_reverse] at hc
    exact decide_eq_true fun he => h.within (he ▸ hc)
  rw [h.parts, List.reverse_append, List.takeWhile_append_of_pos hline]
  rcases h.opened with rfl | ⟨earlier, rfl⟩
  · simp
  · simp

end EndsIn

namespace Cursor

theorem after_line (place : Cursor) (h : '\n' ∉ line) :
    (place.after line).position =
      ⟨place.position.line, place.position.column + line.length⟩ := by
  induction line generalizing place with
  | nil => rfl
  | cons c line ih =>
    rw [List.mem_cons, not_or] at h
    rw [after_cons, ih _ h.2, next, if_neg (Ne.symm h.1), List.length_cons]
    dsimp only
    congr 1
    omega

theorem after_line_eq (place : Cursor) (cs : List Char) :
    (place.after cs).position.line = place.position.line + cs.count '\n' := by
  induction cs generalizing place with
  | nil => rfl
  | cons c cs ih =>
    rw [after_cons, ih, next, List.count_cons]
    by_cases hc : c = '\n'
    · rw [if_pos hc, if_pos (beq_iff_eq.mpr hc)]
      dsimp only
      omega
    · rw [if_neg hc, if_neg (mt beq_iff_eq.mp hc)]
      rfl

theorem position_of_endsIn (h : EndsIn pre front line) :
    (start.after pre).position = ⟨1 + pre.count '\n', 1 + line.length⟩ := by
  have hfront : (start.after front).position = ⟨1 + front.count '\n', 1⟩ := by
    have hline := after_line_eq start front
    have hcolumn : (start.after front).position.column = 1 := by
      rcases h.opened with rfl | ⟨earlier, rfl⟩
      · rfl
      · rw [after_append, after_cons, after_nil, next, if_pos rfl]
    change Position.mk (start.after front).position.line (start.after front).position.column = _
    rw [hline, hcolumn]
    rfl
  rw [h.parts, after_append, after_line _ h.within, hfront, ← h.parts, h.count_eq]

end Cursor

/-! ### Places in a text -/

/-- What stands before an offset: whole characters, and then the first bytes of one perhaps. -/
theorem exists_split (cs : List Char) (h : offset ≤ utf8Len cs) :
    ∃ pre post, cs = pre ++ post ∧ (utf8Len pre = offset ∨
      utf8Len pre < offset ∧ ∃ c rest, post = c :: rest ∧ offset < utf8Len pre + c.utf8Size) := by
  induction cs generalizing offset with
  | nil => exact ⟨[], [], rfl, .inl (Nat.le_zero.mp h).symm⟩
  | cons c cs ih =>
    rw [String.utf8Len_cons] at h
    by_cases hzero : offset = 0
    · exact ⟨[], c :: cs, rfl, .inl hzero.symm⟩
    by_cases hc : offset < c.utf8Size
    · refine ⟨[], c :: cs, rfl, .inr ⟨Nat.pos_of_ne_zero hzero, c, cs, rfl, ?_⟩⟩
      rw [String.utf8Len_nil, Nat.zero_add]
      exact hc
    · have hrest : offset - c.utf8Size ≤ utf8Len cs := by omega
      obtain ⟨pre, post, rfl, hplace⟩ := ih hrest
      refine ⟨c :: pre, post, rfl, ?_⟩
      rw [String.utf8Len_cons]
      rcases hplace with heq | ⟨hlt, d, rest, hpost, hd⟩
      · exact .inl (by omega)
      · exact .inr ⟨by omega, d, rest, hpost, by omega⟩

theorem ne_lineFeed_of_within {size : ℕ} (h : size < offset) (hc : offset < size + c.utf8Size) :
    c ≠ '\n' := by
  rintro rfl
  have hsize : Char.utf8Size '\n' = 1 := by decide
  omega

namespace Position

/-- How many bytes of a line there are behind a text that is entered with `width` of them. -/
def widthAfter (width : ℕ) (cs : List Char) : ℕ :=
  cs.foldl (fun width c => if c = '\n' then 0 else width + c.utf8Size) width

theorem widthAfter_cons (width : ℕ) (c : Char) (cs : List Char) :
    widthAfter width (c :: cs) = widthAfter (if c = '\n' then 0 else width + c.utf8Size) cs := rfl

theorem widthAfter_append (width : ℕ) (pre post : List Char) :
    widthAfter width (pre ++ post) = widthAfter (widthAfter width pre) post :=
  List.foldl_append

theorem widthAfter_line (width : ℕ) (h : '\n' ∉ line) :
    widthAfter width line = width + utf8Len line := by
  induction line generalizing width with
  | nil => rfl
  | cons c line ih =>
    rw [List.mem_cons, not_or] at h
    rw [widthAfter_cons, if_neg (Ne.symm h.1), ih _ h.2, String.utf8Len_cons]
    omega

theorem widthAfter_of_endsIn (h : EndsIn pre front line) : widthAfter 0 pre = utf8Len line := by
  have hfront : widthAfter 0 front = 0 := by
    rcases h.opened with rfl | ⟨earlier, rfl⟩
    · rfl
    · rw [widthAfter_append, widthAfter_cons, if_pos rfl]
      rfl
  rw [h.parts, widthAfter_append, hfront, widthAfter_line _ h.within, Nat.zero_add]

/-- Looking up an offset behind `pre` goes on behind `pre`. -/
theorem locate_append (pre post : List Char) (offset width : ℕ) (place : Cursor) :
    locate (pre ++ post) (utf8Len pre + offset) place.position width =
      locate post offset (place.after pre).position (widthAfter width pre) := by
  induction pre generalizing place width with
  | nil => rw [String.utf8Len_nil, Nat.zero_add]; rfl
  | cons c pre ih =>
    have hpos := c.utf8Size_pos
    have hrest : utf8Len pre + c.utf8Size + offset - c.utf8Size = utf8Len pre + offset := by omega
    rw [List.cons_append, String.utf8Len_cons, locate, if_neg (by omega), if_neg (by omega), hrest,
      Cursor.after_cons, widthAfter_cons, ← ih]
    by_cases hc : c = '\n'
    · rw [if_pos hc, if_pos hc, Cursor.next, if_pos hc]
    · rw [if_neg hc, if_neg hc, Cursor.next, if_neg hc]

/-- An offset inside a character counts the bytes from the beginning of its line on. -/
theorem locate_within (h : EndsIn pre front line) {rest : List Char}
    (hlt : utf8Len pre < offset) (hc : offset < utf8Len pre + c.utf8Size) :
    locate (pre ++ c :: rest) offset ⟨1, 1⟩ 0 =
      ⟨1 + pre.count '\n', 1 + (offset - utf8Len front)⟩ := by
  have hsum : utf8Len pre = utf8Len front + utf8Len line := by
    rw [h.parts, String.utf8Len_append]
  obtain ⟨part, rfl⟩ := Nat.exists_eq_add_of_le hlt.le
  have hlocate := locate_append pre (c :: rest) part 0 Cursor.start
  rw [locate, if_neg (by omega), if_pos (by omega), Cursor.position_of_endsIn h,
    widthAfter_of_endsIn h] at hlocate
  refine hlocate.trans ?_
  congr 1
  omega

end Position

end MooScript
