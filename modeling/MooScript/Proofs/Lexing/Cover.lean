import MooScript.Proofs.Lexing.Munch
import MooScript.Proofs.Location.Source

/-! The tokens of a source text account for all of it: between them stand blanks alone, and each is
the longest lexeme where it starts. -/
namespace MooScript

variable {source : String} {place : Cursor} {c : Char} {cs pre post : List Char}
  {tokens : List Token} {t : Token}

/-- `text` stands in the source from the byte `offset` on. -/
def TextAt (source : String) (offset : Nat) (text : List Char) : Prop :=
  ∃ pre post, source.toList = pre ++ (text ++ post) ∧ (String.ofList pre).utf8ByteSize = offset

/-- Nothing of the source is lost in the tokens, and none could have been longer. -/
structure Token.Cover (source : String) (tokens : List Token) : Prop where
  nonempty : ∀ t ∈ tokens, t.span.start < t.span.stop
  ordered : tokens.Pairwise fun t u => t.span.stop ≤ u.span.start
  text : ∀ t ∈ tokens, TextAt source t.span.start t.text.toList ∧
    t.span.stop = t.span.start + t.text.utf8ByteSize
  blank : ∀ offset c, TextAt source offset [c] →
    (∀ t ∈ tokens, ¬ (t.span.start ≤ offset ∧ offset < t.span.stop)) →
    c ∈ [' ', '\t', '\r', '\n', '\x0c']
  position : ∀ t ∈ tokens, (LineIndex.ofSource source).position? t.span.start = some t.position
  kind : ∀ t ∈ tokens, ∀ kind : Kind, kind.Lexeme t.text.toList ↔ t.kind = kind
  longest : ∀ t ∈ tokens, ∀ longer, TextAt source t.span.start longer →
    t.text.length < longer.length → ∀ kind : Kind, ¬ kind.Lexeme longer
  no_end : ∀ t ∈ tokens, t.kind ≠ .eof

namespace Lexer

/-- The token of a text that starts at `place`. -/
def tokenAt (place : Cursor) (kind : Kind) (text : List Char) : Token :=
  ⟨kind, ⟨place.offset, (place.after text).offset⟩, String.ofList text, place.position⟩

/-- A text from `place` on is cut into blanks and tokens. -/
inductive Cut : Cursor → List Char → List Token → Prop
  | done {place : Cursor} : Cut place [] []
  | blank {place : Cursor} {c : Char} {cs : List Char} {tokens : List Token}
      (hc : isBlank c = true) (h : Cut (place.next c) cs tokens) : Cut place (c :: cs) tokens
  | token {place : Cursor} {c : Char} {cs : List Char} {kind : Kind} {n : Nat}
      {tokens : List Token} (hm : munch? c cs = some (kind, n))
      (h : Cut (place.after (c :: cs.take n)) (cs.drop n) tokens) :
      Cut place (c :: cs) (tokenAt place kind (c :: cs.take n) :: tokens)

theorem scan_cut (h : scan place cs = .ok tokens) : Cut place cs tokens := by
  fun_induction scan place cs generalizing tokens with
  | case1 place =>
    cases h
    exact .done
  | case2 place c cs hblank ih => exact .blank hblank (ih h)
  | case3 place c cs hblank hmunch => cases h
  | case4 place c cs hblank kind n hmunch text stop =>
    rename_i ih
    cases hscan : scan stop (cs.drop n) with
    | error e =>
      rw [hscan] at h
      cases h
    | ok rest =>
      rw [hscan] at h
      cases h
      exact .token hmunch (ih hscan)

/-- Where a token of the text comes from. -/
theorem Cut.exists_munch (h : Cut place cs tokens) (ht : t ∈ tokens) :
    ∃ pre c rest kind n, cs = pre ++ c :: rest ∧ munch? c rest = some (kind, n) ∧
      t = tokenAt (place.after pre) kind (c :: rest.take n) := by
  induction h with
  | done => cases ht
  | blank hc h ih =>
    rename_i c cs tokens
    obtain ⟨pre, c', rest, kind, n, rfl, hm, rfl⟩ := ih ht
    exact ⟨c :: pre, c', rest, kind, n, rfl, hm, rfl⟩
  | token hm h ih =>
    rename_i place c cs kind n tokens
    rcases List.mem_cons.mp ht with rfl | ht
    · exact ⟨[], c, cs, kind, n, rfl, hm, rfl⟩
    · obtain ⟨pre, c', rest, kind', n', hdrop, hm', rfl⟩ := ih ht
      refine ⟨c :: cs.take n ++ pre, c', rest, kind', n', ?_, hm', ?_⟩
      · rw [List.append_assoc, ← hdrop, List.cons_append, List.take_append_drop]
      · rw [Cursor.after_append]

theorem offset_le_after (place : Cursor) (cs : List Char) :
    place.offset ≤ (place.after cs).offset := by
  rw [Cursor.after_offset]
  exact Nat.le_add_right _ _

theorem Cut.offset_le (h : Cut place cs tokens) (ht : t ∈ tokens) :
    place.offset ≤ t.span.start := by
  obtain ⟨pre, c, rest, kind, n, _, _, rfl⟩ := h.exists_munch ht
  exact offset_le_after place pre

theorem Cut.ordered (h : Cut place cs tokens) :
    tokens.Pairwise fun t u => t.span.stop ≤ u.span.start := by
  induction h with
  | done => exact .nil
  | blank hc h ih => exact ih
  | token hm h ih => exact .cons (fun u hu => h.offset_le hu) ih

theorem offset_after_lt (place : Cursor) (pre : List Char) (c : Char) (post : List Char) :
    (place.after pre).offset < (place.after (pre ++ c :: post)).offset := by
  have hpositive := c.utf8Size_pos
  have hpost := offset_le_after ((place.after pre).next c) post
  rw [Cursor.next_offset] at hpost
  rw [Cursor.after_append, Cursor.after_cons]
  omega

/-- A character outside all tokens is a blank. -/
theorem Cut.isBlank (h : Cut place cs tokens) (hcs : cs = pre ++ c :: post)
    (hout : ∀ t ∈ tokens,
      ¬ (t.span.start ≤ (place.after pre).offset ∧ (place.after pre).offset < t.span.stop)) :
    Lexer.isBlank c = true := by
  induction h generalizing pre with
  | done => exact absurd hcs.symm (List.append_ne_nil_of_right_ne_nil pre (List.cons_ne_nil c post))
  | blank hc h ih =>
    cases pre with
    | nil =>
      obtain ⟨rfl, _⟩ := List.cons.inj hcs
      exact hc
    | cons d pre =>
      obtain ⟨rfl, rfl⟩ := List.cons.inj hcs
      exact ih rfl hout
  | token hm h ih =>
    rename_i place c' cs kind n tokens
    obtain ⟨hfirst, hrest⟩ := List.forall_mem_cons.mp hout
    have hsplit : (c' :: cs.take n) ++ cs.drop n = pre ++ c :: post := by
      rw [← hcs, List.cons_append, List.take_append_drop]
    -- Either the first token ends before `c`, or `c` is one of its characters.
    have hbehind : ∀ pre', pre = (c' :: cs.take n) ++ pre' → cs.drop n = pre' ++ c :: post →
        Lexer.isBlank c = true := by
      rintro pre' rfl hdrop
      rw [Cursor.after_append] at hrest
      exact ih hdrop hrest
    rcases List.append_eq_append_iff.mp hsplit with ⟨pre', hpre, hdrop⟩ | ⟨mid, htext, hdrop⟩
    · exact hbehind pre' hpre hdrop
    · cases mid with
      | nil => exact hbehind [] (by rw [htext]; simp) hdrop.symm
      | cons d mid =>
        obtain ⟨rfl, _⟩ := List.cons.inj hdrop
        refine absurd ⟨offset_le_after place pre, ?_⟩ hfirst
        rw [tokenAt, htext]
        exact offset_after_lt place pre c mid

/-- A byte offset determines what stands before it. -/
theorem append_inj_of_size {pre' post' : List Char} (h : pre ++ post = pre' ++ post')
    (hsize : (String.ofList pre).utf8ByteSize = (String.ofList pre').utf8ByteSize) :
    pre = pre' ∧ post = post' := by
  have hnil : ∀ {xs mid : List Char},
      (String.ofList xs).utf8ByteSize = (String.ofList (xs ++ mid)).utf8ByteSize → mid = [] := by
    intro xs mid heq
    rw [String.ofList_append, String.utf8ByteSize_append] at heq
    have hempty := String.utf8ByteSize_eq_zero_iff.mp (Nat.left_eq_add.mp heq)
    exact String.ofList_eq_empty_iff.mp hempty
  rcases List.append_eq_append_iff.mp h with ⟨mid, rfl, rfl⟩ | ⟨mid, rfl, rfl⟩
  · rw [hnil hsize, List.append_nil]
    exact ⟨rfl, rfl⟩
  · rw [hnil hsize.symm, List.append_nil]
    exact ⟨rfl, rfl⟩

theorem start_offset (pre : List Char) :
    (Cursor.start.after pre).offset = (String.ofList pre).utf8ByteSize := by
  rw [Cursor.after_offset]
  exact Nat.zero_add _

/-- No lexeme that starts where a token does is longer. -/
theorem not_lexeme_of_longer {rest longer : List Char} {kind : Kind} {n : Nat}
    (hsource : source.toList = pre ++ c :: rest) (hm : munch? c rest = some (kind, n))
    (hl : TextAt source (String.ofList pre).utf8ByteSize longer) (hlt : n + 1 < longer.length)
    (kind' : Kind) : ¬ kind'.Lexeme longer := by
  intro hlexeme
  obtain ⟨pre', post', hsource', hsize⟩ := hl
  obtain ⟨rfl, hrest⟩ := append_inj_of_size (hsource.symm.trans hsource') hsize.symm
  cases longer with
  | nil => exact absurd hlt (Nat.not_lt_zero _)
  | cons d longer =>
    obtain ⟨rfl, rfl⟩ := List.cons.inj hrest
    have hle := length_le_of_munch? hm hlexeme (List.prefix_append longer post')
    exact absurd (Nat.lt_of_succ_lt_succ hlt) (Nat.not_lt_of_le hle)

theorem Cut.cover (h : Cut .start source.toList tokens) : Token.Cover source tokens where
  nonempty t ht := by
    obtain ⟨pre, c, rest, kind, n, _, _, rfl⟩ := h.exists_munch ht
    exact offset_after_lt (Cursor.start.after pre) [] c (rest.take n)
  ordered := h.ordered
  text t ht := by
    obtain ⟨pre, c, rest, kind, n, hsource, _, rfl⟩ := h.exists_munch ht
    refine ⟨⟨pre, rest.drop n, ?_, (start_offset pre).symm⟩, Cursor.after_offset _ _⟩
    rw [tokenAt, String.toList_ofList, List.cons_append, List.take_append_drop]
    exact hsource
  blank offset c hat hout := by
    obtain ⟨pre, post, hsource, rfl⟩ := hat
    rw [← start_offset] at hout
    have hblank := h.isBlank hsource hout
    simpa [Lexer.isBlank, or_assoc] using hblank
  position t ht := by
    obtain ⟨pre, c, rest, kind, n, hsource, _, rfl⟩ := h.exists_munch ht
    rw [tokenAt, start_offset]
    exact LineIndex.position?_after hsource
  kind t ht kind' := by
    obtain ⟨pre, c, rest, kind, n, _, hm, rfl⟩ := h.exists_munch ht
    obtain ⟨_, hlexeme⟩ := lexeme_of_munch? hm
    rw [tokenAt, String.toList_ofList]
    exact ⟨fun h' => hlexeme.unique h', fun heq => heq ▸ hlexeme⟩
  longest t ht longer hl hlt := by
    obtain ⟨pre, c, rest, kind, n, hsource, hm, rfl⟩ := h.exists_munch ht
    obtain ⟨hle, _⟩ := lexeme_of_munch? hm
    rw [tokenAt, start_offset] at hl
    rw [tokenAt, String.length_ofList, List.length_cons, List.length_take_of_le hle] at hlt
    exact not_lexeme_of_longer hsource hm hl hlt
  no_end t ht heof := by
    obtain ⟨pre, c, rest, kind, n, _, hm, rfl⟩ := h.exists_munch ht
    obtain ⟨_, hlexeme⟩ := lexeme_of_munch? hm
    obtain rfl : kind = .eof := heof
    exact hlexeme

end Lexer

/-- The tokens of a text that can be read cover it, blanks apart. -/
theorem Token.cover_of_lex (h : Token.lex source = .ok tokens) : Token.Cover source tokens :=
  (Lexer.scan_cut h).cover

/-- Where rules overlap: a keyword that goes on, points and fractions, a number too large for an
integer, and characters of several bytes inside a comment and a string. -/
theorem Token.cover_of_lex_overlaps :
    let source := "if iffy/**é*/1..2.5.\n9223372036854775808=>\"\\\"日\"//"
    let tokens : List Token :=
      [⟨.keyword .if_, ⟨0, 2⟩, "if", ⟨1, 1⟩⟩, ⟨.identifier, ⟨3, 7⟩, "iffy", ⟨1, 4⟩⟩,
        ⟨.comment, ⟨7, 14⟩, "/**é*/", ⟨1, 8⟩⟩, ⟨.integer, ⟨14, 15⟩, "1", ⟨1, 14⟩⟩,
        ⟨.symbol .dotDot, ⟨15, 17⟩, "..", ⟨1, 15⟩⟩, ⟨.float, ⟨17, 20⟩, "2.5", ⟨1, 17⟩⟩,
        ⟨.symbol .dot, ⟨20, 21⟩, ".", ⟨1, 20⟩⟩,
        ⟨.float, ⟨22, 41⟩, "9223372036854775808", ⟨2, 1⟩⟩,
        ⟨.symbol .fatArrow, ⟨41, 43⟩, "=>", ⟨2, 20⟩⟩,
        ⟨.string, ⟨43, 50⟩, "\"\\\"日\"", ⟨2, 22⟩⟩, ⟨.comment, ⟨50, 52⟩, "//", ⟨2, 27⟩⟩]
    Token.lex source = .ok tokens ∧ Token.Cover source tokens := by
  intro source tokens
  have hlex : Token.lex source = .ok tokens := by cbv
  exact ⟨hlex, cover_of_lex hlex⟩

end MooScript
