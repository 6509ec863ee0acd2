import MooScript.Proofs.Lexing.Scan

/-! The tokens of a text, written one to a line, are read back. -/
namespace MooScript

variable {source : String} {tokens : List Token}

namespace Lexer

theorem toList_lines_cons_cons (text text' : String) (texts : List String) :
    ("\n".intercalate (text :: text' :: texts)).toList =
      text.toList ++ '\n' :: ("\n".intercalate (text' :: texts)).toList := by
  rw [String.intercalate_cons_cons, String.toList_append, String.toList_append,
    List.append_assoc]
  rfl

theorem content_tokenAt (place : Cursor) (t : Token) :
    ((tokenAt place t.kind t.text.toList).kind, (tokenAt place t.kind t.text.toList).text) =
      (t.kind, t.text) := by
  rw [tokenAt, String.ofList_toList]

/-- Lexemes one to a line are scanned to tokens of their kinds. -/
theorem scan_lines (place : Cursor) (h : ∀ t ∈ tokens, t.kind.Lexeme t.text.toList) :
    ∃ tokens', scan place ("\n".intercalate (tokens.map (·.text))).toList = .ok tokens' ∧
      (tokens'.map fun t => (t.kind, t.text)) = tokens.map fun t => (t.kind, t.text) := by
  induction tokens generalizing place with
  | nil => exact ⟨[], scan_nil place, rfl⟩
  | cons t tokens ih =>
    obtain ⟨ht, htokens⟩ := List.forall_mem_cons.mp h
    cases tokens with
    | nil =>
      have hscan := scan_lexeme place ht endsLine_nil (scan_nil _)
      rw [List.append_nil] at hscan
      rw [List.map_singleton, String.intercalate_singleton]
      exact ⟨_, hscan, congrArg ([·]) (content_tokenAt place t)⟩
    | cons t' tokens =>
      -- The line feed that ends the lexeme is itself a blank in front of the next one.
      obtain ⟨rest, hrest, hcontents⟩ := ih ((place.after t.text.toList).next '\n') htokens
      rw [← scan_blank rfl] at hrest
      rw [List.map_cons, List.map_cons, toList_lines_cons_cons]
      refine ⟨_, scan_lexeme place ht (endsLine_newline _) hrest, ?_⟩
      rw [List.map_cons, List.map_cons, content_tokenAt, hcontents]

end Lexer

open Lexer

/-- The tokens of a text, written one to a line, are read back; so is each of them alone. -/
theorem Token.lex_lines (h : lex source = .ok tokens) :
    (∃ tokens', lex ("\n".intercalate (tokens.map (·.text))) = .ok tokens' ∧
      (tokens'.map fun t => (t.kind, t.text)) = tokens.map fun t => (t.kind, t.text)) ∧
    ∀ t ∈ tokens, lex t.text = .ok [⟨t.kind, ⟨0, t.text.utf8ByteSize⟩, t.text, ⟨1, 1⟩⟩] := by
  have hlexeme : ∀ t ∈ tokens, t.kind.Lexeme t.text.toList := fun t ht =>
    ((cover_of_lex h).kind t ht t.kind).mpr rfl
  refine ⟨scan_lines .start hlexeme, fun t ht => ?_⟩
  have hlex := lex_lexeme (hlexeme t ht)
  rw [tokenAt, start_offset, String.ofList_toList] at hlex
  exact hlex

/-- Tokens that stand close together, a string and a comment of two lines each, and a comment that
runs to the end of its line. -/
theorem Token.lex_lines_adjacent :
    let source := "x=\"a\n\\\"b\"/*\n*/1..2.5//==\n=9223372036854775808"
    let lines := "x\n=\n\"a\n\\\"b\"\n/*\n*/\n1\n..\n2.5\n//==\n=\n9223372036854775808"
    let contents : List (Kind × String) := [(.identifier, "x"), (.symbol .equal, "="),
      (.string, "\"a\n\\\"b\""), (.comment, "/*\n*/"), (.integer, "1"), (.symbol .dotDot, ".."),
      (.float, "2.5"), (.comment, "//=="), (.symbol .equal, "="), (.float, "9223372036854775808")]
    (∃ tokens, lex source = .ok tokens ∧ "\n".intercalate (tokens.map (·.text)) = lines) ∧
      ∃ tokens, lex lines = .ok tokens ∧ (tokens.map fun t => (t.kind, t.text)) = contents := by
  intro source lines contents
  let tokens : List Token :=
    [⟨.identifier, ⟨0, 1⟩, "x", ⟨1, 1⟩⟩, ⟨.symbol .equal, ⟨1, 2⟩, "=", ⟨1, 2⟩⟩,
      ⟨.string, ⟨2, 9⟩, "\"a\n\\\"b\"", ⟨1, 3⟩⟩, ⟨.comment, ⟨9, 14⟩, "/*\n*/", ⟨2, 5⟩⟩,
      ⟨.integer, ⟨14, 15⟩, "1", ⟨3, 3⟩⟩, ⟨.symbol .dotDot, ⟨15, 17⟩, "..", ⟨3, 4⟩⟩,
      ⟨.float, ⟨17, 20⟩, "2.5", ⟨3, 6⟩⟩, ⟨.comment, ⟨20, 24⟩, "//==", ⟨3, 9⟩⟩,
      ⟨.symbol .equal, ⟨25, 26⟩, "=", ⟨4, 1⟩⟩, ⟨.float, ⟨26, 45⟩, "9223372036854775808", ⟨4, 2⟩⟩]
  have hlex : lex source = .ok tokens := by cbv
  have hlines : "\n".intercalate (tokens.map (·.text)) = lines := by cbv
  refine ⟨⟨tokens, hlex, hlines⟩, ?_⟩
  rw [← hlines]
  exact (lex_lines hlex).1

end MooScript
