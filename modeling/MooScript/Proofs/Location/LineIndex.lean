import MooScript.Proofs.Location.Token
import MooScript.Proofs.Order.Text

/-! The table of lines finds at each offset the line and the column that counting up to it gives. -/
namespace MooScript

open String (utf8Len)

variable {source : String} {pre post : List Char} {c : Char} {offset : ℕ}

/-- The one comes before the other in a text. -/
def Position.Before (p q : Position) : Prop :=
  p.line < q.line ∨ p.line = q.line ∧ p.column < q.column

theorem Position.Before.trans {p q r : Position} (h : p.Before q) (h' : q.Before r) :
    p.Before r := by
  unfold Position.Before at *
  omega

/-- What is read on is behind. -/
theorem Cursor.before_after (place : Cursor) {cs : List Char} (h : cs ≠ []) :
    place.position.Before (place.after cs).position := by
  have hnext (place : Cursor) (c : Char) : place.position.Before (place.next c).position := by
    rw [next]
    split
    · exact .inl (Nat.lt_succ_self _)
    · exact .inr ⟨rfl, Nat.lt_succ_self _⟩
  induction cs generalizing place with
  | nil => exact absurd rfl h
  | cons c cs ih =>
    rw [after_cons]
    cases cs with
    | nil => exact hnext place c
    | cons d ds => exact (hnext place c).trans (ih (place.next c) (List.cons_ne_nil d ds))

namespace LineIndex

/-! ### Counting -/

/-- The byte of a line feed is in the encoding of no other character. -/
theorem count_utf8EncodeChar (c : Char) :
    (String.utf8EncodeChar c).count 10 = if c = '\n' then 1 else 0 := by
  by_cases hc : c = '\n'
  · rw [if_pos hc, hc]
    decide
  · have hne : c.val.toNat ≠ 10 := fun h => hc (Char.ext (UInt32.toNat_inj.mp h))
    rw [if_neg hc, List.count_eq_zero]
    unfold String.utf8EncodeChar
    dsimp only
    split_ifs
    all_goals
      simp only [List.mem_cons, List.not_mem_nil, or_false, ← UInt8.toNat_inj,
        UInt8.toNat_ofNat', UInt8.toNat_ofNat, Nat.reducePow]
      omega

theorem count_flatMap (cs : List Char) :
    (cs.flatMap String.utf8EncodeChar).count 10 = cs.count '\n' := by
  induction cs with
  | nil => rfl
  | cons c cs ih =>
    rw [List.flatMap_cons, List.count_append, ih, count_utf8EncodeChar, List.count_cons]
    by_cases hc : c = '\n'
    · rw [if_pos hc, if_pos (beq_iff_eq.mpr hc), Nat.add_comm]
    · rw [if_neg hc, if_neg (mt beq_iff_eq.mp hc), Nat.add_comm]

theorem length_flatMap (cs : List Char) :
    (cs.flatMap String.utf8EncodeChar).length = utf8Len cs := by
  induction cs with
  | nil => rfl
  | cons c cs ih =>
    rw [List.flatMap_cons, List.length_append, ih, String.length_utf8EncodeChar,
      String.utf8Len_cons, Nat.add_comm]

theorem count_take_of_append (hsource : source.toList = pre ++ post) :
    (source.toUTF8.toList.take (utf8Len pre)).count 10 = pre.count '\n' := by
  rw [Text.toList_toUTF8, hsource, List.flatMap_append, ← length_flatMap pre, List.take_left,
    count_flatMap]

theorem count_take_within {rest : List Char} (hsource : source.toList = pre ++ c :: rest)
    (hlt : utf8Len pre < offset) (hc : offset < utf8Len pre + c.utf8Size) :
    (source.toUTF8.toList.take offset).count 10 = pre.count '\n' := by
  have hfeed : (String.utf8EncodeChar c).count 10 = 0 := by
    rw [count_utf8EncodeChar, if_neg (ne_lineFeed_of_within hlt hc)]
  have hpart (n : ℕ) (hn : n < c.utf8Size) :
      ((String.utf8EncodeChar c ++ rest.flatMap String.utf8EncodeChar).take n).count 10 = 0 := by
    rw [List.take_append_of_le_length (by rw [String.length_utf8EncodeChar]; omega)]
    exact Nat.le_zero.mp (hfeed ▸ (List.take_sublist _ _).count_le 10)
  obtain ⟨part, rfl⟩ := Nat.exists_eq_add_of_le hlt.le
  rw [Text.toList_toUTF8, hsource, List.flatMap_append, ← length_flatMap pre,
    List.take_length_add_append, List.count_append, count_flatMap, List.flatMap_cons,
    hpart part (by omega), Nat.add_zero]

/-- The line is counted by the bytes of line feeds before the offset. -/
theorem ofOffset_line (source : String) (offset : ℕ) :
    (Position.ofOffset source offset).line =
      1 + (source.toUTF8.toList.take (min offset source.utf8ByteSize)).count 10 := by
  rcases exists_place source offset with
    ⟨pre, post, hsource, heq⟩ | ⟨pre, c, rest, hsource, hlt, hc⟩
  · obtain ⟨front, line, hends⟩ := exists_endsIn pre
    rw [ofOffset_of_append hsource heq, ← heq, count_take_of_append hsource,
      Cursor.position_of_endsIn hends]
  · have hsize := le_utf8ByteSize hsource
    have hmin : min offset source.utf8ByteSize = offset := by omega
    obtain ⟨front, line, hends⟩ := exists_endsIn pre
    rw [hmin, count_take_within hsource hlt hc, Position.ofOffset, hsource,
      Position.locate_within hends hlt hc]

theorem exists_append_of_isValid (h : String.Pos.Raw.IsValid source ⟨offset⟩) :
    ∃ pre post, source.toList = pre ++ post ∧ utf8Len pre = offset := by
  obtain ⟨s, t, rfl, hoffset⟩ := String.Pos.Raw.isValid_iff_exists_append.mp h
  refine ⟨s.toList, t.toList, String.toList_append, ?_⟩
  rw [← String.utf8ByteSize_ofList, String.ofList_toList]
  exact (congrArg String.Pos.Raw.byteIdx hoffset).symm

theorem before_of_append {pre' post' : List Char} (h : source.toList = pre ++ post)
    (h' : source.toList = pre' ++ post') (hlt : utf8Len pre < utf8Len pre') :
    (Cursor.start.after pre).position.Before (Cursor.start.after pre').position := by
  rcases List.append_eq_append_iff.mp (h.symm.trans h') with ⟨mid, rfl, -⟩ | ⟨mid, rfl, -⟩
  · have hne : mid ≠ [] := by
      rintro rfl
      rw [List.append_nil] at hlt
      exact Nat.lt_irrefl _ hlt
    rw [Cursor.after_append]
    exact Cursor.before_after _ hne
  · rw [String.utf8Len_append] at hlt
    omega

/-- The table answers at every offset as counting does: the line by the line feeds before it, the
column by the characters from the last of them on. The answers go up with the offsets, and the end
of the input is put where the last token ends. -/
structure Faithful (source : String) : Prop where
  line : ∀ offset, ∃ position, (ofSource source).position? offset = some position ∧
    position.line =
      1 + (source.toUTF8.toList.take (min offset source.utf8ByteSize)).count 10
  column : ∀ offset pre post, source.toList = pre ++ post →
    (String.ofList pre).utf8ByteSize = min offset source.utf8ByteSize →
      ∃ position, (ofSource source).position? offset = some position ∧
        position.column = 1 + (pre.reverse.takeWhile (· ≠ '\n')).length
  sequential : ∀ offset,
    (ofSource source).position? offset = some (Position.ofOffset source offset)
  increasing : ∀ first second, first < second → String.Pos.Raw.IsValid source ⟨first⟩ →
    String.Pos.Raw.IsValid source ⟨second⟩ →
      ∃ p q, (ofSource source).position? first = some p ∧
        (ofSource source).position? second = some q ∧ p.Before q
  endOfInput : ∀ tokens last, Token.lex source = .ok tokens →
    (tokens.filter (·.kind ≠ .comment)).getLast? = some last →
      (ofSource source).position? last.span.stop = some (Token.endOfInput (some last)).position

theorem position?_faithful (source : String) : Faithful source where
  line offset := ⟨_, position?_eq_ofOffset source offset, ofOffset_line source offset⟩
  column offset pre post hsource hsize := by
    obtain ⟨front, line, hends⟩ := exists_endsIn pre
    rw [String.utf8ByteSize_ofList] at hsize
    refine ⟨_, position?_of_append hsource hsize, ?_⟩
    rw [Cursor.position_of_endsIn hends, hends.takeWhile_reverse, List.length_reverse]
  sequential := position?_eq_ofOffset source
  increasing first second hlt hfirst hsecond := by
    obtain ⟨pre, post, hpre, rfl⟩ := exists_append_of_isValid hfirst
    obtain ⟨pre', post', hpre', rfl⟩ := exists_append_of_isValid hsecond
    have hp := position?_after hpre
    have hq := position?_after hpre'
    rw [String.utf8ByteSize_ofList] at hp hq
    exact ⟨_, _, hp, hq, before_of_append hpre hpre' hlt⟩
  endOfInput tokens last hlex hlast := by
    have hmem : last ∈ tokens := (List.mem_filter.mp (List.mem_of_getLast? hlast)).1
    have hstands : (Token.endOfInput (some last)).StandsIn source := by
      refine Token.endOfInput_standsIn fun t ht => ?_
      cases ht
      exact Token.standsIn_of_lex hlex hmem
    exact hstands.location.marks.position

theorem position?_faithful_lines :
    ∃ tokens last, Token.lex "x;\n\"é\n\nb\" // c" = .ok tokens ∧
      (tokens.filter (·.kind ≠ .comment)).getLast? = some last ∧ last.span.stop = 10 ∧
      (ofSource "x;\n\"é\n\nb\" // c").position? 10 =
        some (Token.endOfInput (some last)).position ∧
      (Token.endOfInput (some last)).position = ⟨4, 3⟩ := by
  have hlex : Token.lex "x;\n\"é\n\nb\" // c" =
      .ok [⟨.identifier, ⟨0, 1⟩, "x", ⟨1, 1⟩⟩, ⟨.symbol .semicolon, ⟨1, 2⟩, ";", ⟨1, 2⟩⟩,
        ⟨.string, ⟨3, 10⟩, "\"é\n\nb\"", ⟨2, 1⟩⟩, ⟨.comment, ⟨11, 15⟩, "// c", ⟨4, 4⟩⟩] := by cbv
  exact ⟨_, _, hlex, rfl, rfl, (position?_faithful _).endOfInput _ _ hlex rfl, rfl⟩

end LineIndex
end MooScript
