import MooScript.Proofs.Location.Source
import MooScript.Token.Lexer

/-! Tokens stand in the source they are read from, and so does the character that begins none. -/
namespace MooScript

variable {source : String}

/-- The token's text is a stretch of the source, and the token is located there. -/
def Token.StandsIn (t : Token) (source : String) : Prop :=
  ∃ pre post, source.toList = pre ++ (t.text.toList ++ post) ∧
    t.location = .between pre t.text.toList

theorem Token.StandsIn.location {t : Token} (h : t.StandsIn source) :
    t.location.StandsIn source := by
  obtain ⟨pre, post, hsource, hl⟩ := h
  exact ⟨pre, t.text.toList, post, hsource, hl⟩

namespace Lexer

/-- What a scan of a suffix of the source gives. -/
def Located (source : String) : Except LexicalError (List Token) → Prop
  | .ok tokens => ∀ t ∈ tokens, t.StandsIn source
  | .error e => e.location.StandsIn source

theorem scan_located {cs pre : List Char} (h : source.toList = pre ++ cs) :
    Located source (scan (Cursor.start.after pre) cs) := by
  generalize hplace : Cursor.start.after pre = place
  -- The scanner keeps the source split into what it has read and what is left.
  fun_induction scan place cs generalizing pre with
  | case1 place =>
    intro t ht
    cases ht
  | case2 place c cs hblank ih =>
    have hsplit : source.toList = (pre ++ [c]) ++ cs := by
      rw [h, List.append_assoc, List.singleton_append]
    apply ih hsplit
    rw [Cursor.after_append, hplace, Cursor.after_cons, Cursor.after_nil]
  | case3 place c cs hblank hmunch =>
    refine ⟨pre, [c], cs, h, ?_⟩
    simp only [LexicalError.location, Location.between, hplace, Cursor.after_cons,
      Cursor.after_nil, Cursor.next_offset]
  | case4 place c cs hblank kind n hmunch text stop =>
    rename_i ih
    have htext : source.toList = pre ++ (text ++ cs.drop n) := by
      rw [h, List.cons_append, List.take_append_drop]
    have hsplit : source.toList = (pre ++ text) ++ cs.drop n := by
      rw [htext, List.append_assoc]
    have hrest := ih hsplit (by rw [Cursor.after_append, hplace])
    cases hscan : scan stop (cs.drop n) with
    | error e =>
      rw [hscan] at hrest
      exact hrest
    | ok tokens =>
      rw [hscan] at hrest
      intro t ht
      rcases List.mem_cons.mp ht with rfl | ht
      · refine ⟨pre, cs.drop n, ?_, ?_⟩
        · rw [String.toList_ofList]
          exact htext
        · simp only [Token.location, Location.between, String.toList_ofList, hplace]
          rfl
      · exact hrest t ht

end Lexer

theorem Lexer.lex_located (source : String) : Located source (Token.lex source) := by
  have hsource : source.toList = [] ++ source.toList := rfl
  exact scan_located hsource

theorem Token.standsIn_of_lex {tokens : List Token} (h : Token.lex source = .ok tokens)
    {t : Token} (ht : t ∈ tokens) : t.StandsIn source := by
  have hscan := Lexer.lex_located source
  rw [h] at hscan
  exact hscan t ht

theorem LexicalError.standsIn {e : LexicalError} (h : Token.lex source = .error e) :
    e.location.StandsIn source := by
  have hscan := Lexer.lex_located source
  rw [h] at hscan
  exact hscan

/-- The end of the input stands right behind the last token. -/
theorem Token.endOfInput_standsIn {last? : Option Token}
    (h : ∀ last ∈ last?, last.StandsIn source) : (endOfInput last?).StandsIn source := by
  cases last? with
  | none => exact ⟨[], source.toList, rfl, rfl⟩
  | some last =>
    obtain ⟨pre, post, hsource, hl⟩ := h last rfl
    have hposition : last.position = (Cursor.start.after pre).position :=
      congrArg Location.position hl
    have hstop : last.span.stop = ((Cursor.start.after pre).after last.text.toList).offset :=
      congrArg (fun l => l.span.stop) hl
    refine ⟨pre ++ last.text.toList, post, by rw [hsource]; simp [endOfInput], ?_⟩
    simp only [endOfInput, Token.location, Location.between, Span.point, Cursor.after_append,
      String.toList_empty, Cursor.after_nil, hstop, hposition, Cursor.after_position]

end MooScript
