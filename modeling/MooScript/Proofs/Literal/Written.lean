import MooScript.Proofs.Lexing.Offence
import MooScript.Proofs.Syntax.Completeness.Program
import MooScript.Syntax.Literal

/-! The ways to write a string between quotes, and what is read where one of them stands: the
string, unless a backslash ends a line. -/
namespace MooScript

open Lexer Syntax

namespace Text

variable {c : Char} {cs piece : List Char} {pieces : List (List Char)}

/-- How a character may be written: raw, by the letter or digit of its escape, or with a backslash
in front of it. -/
inductive Writes : Char → List Char → Prop
  | raw {c : Char} (hquote : c ≠ '\x22') (hbackslash : c ≠ '\\') : Writes c [c]
  | lineFeed : Writes '\n' ['\\', 'n']
  | tab : Writes '\t' ['\\', 't']
  | carriageReturn : Writes '\r' ['\\', 'r']
  | null : Writes '\x00' ['\\', '0']
  | itself {c : Char} (h : c ∉ ['n', 't', 'r', '0']) : Writes c ['\\', c]

/-- A backslash at the end of a line, which the scanner does not go past. -/
def brokenLine : List Char := ['\\', '\n']

/-- A text between quotes. -/
def inQuotes (body : List Char) : String := String.ofList ('\x22' :: (body ++ ['\x22']))

/-! ### The two readers of what is written -/

theorem unescape_cons_of_ne (h : c ≠ '\\') (cs : List Char) :
    unescape (c :: cs) = c :: unescape cs := by
  rw [unescape]
  rintro _ _ rfl _
  exact h rfl

theorem unescape_itself (h : c ∉ ['n', 't', 'r', '0']) (cs : List Char) :
    unescape ('\\' :: c :: cs) = c :: unescape cs := by
  simp only [List.mem_cons, List.not_mem_nil, or_false, not_or] at h
  obtain ⟨hn, ht, hr, hzero⟩ := h
  rw [unescape] <;> assumption

/-- Two ways to write a character: as it is, and by one other with a backslash in front. -/
theorem Writes.raw_or_escaped (h : Writes c piece) :
    (piece = [c] ∧ c ≠ '\x22' ∧ c ≠ '\\') ∨
    ∃ d, piece = ['\\', d] ∧ ∀ cs, unescape ('\\' :: d :: cs) = c :: unescape cs := by
  cases h with
  | raw hquote hbackslash => exact .inl ⟨rfl, hquote, hbackslash⟩
  | lineFeed => exact .inr ⟨'n', rfl, fun cs => by rw [unescape]⟩
  | tab => exact .inr ⟨'t', rfl, fun cs => by rw [unescape]⟩
  | carriageReturn => exact .inr ⟨'r', rfl, fun cs => by rw [unescape]⟩
  | null => exact .inr ⟨'0', rfl, fun cs => by rw [unescape]⟩
  | itself h => exact .inr ⟨c, rfl, unescape_itself h⟩

theorem Writes.unescape_append (h : Writes c piece) (cs : List Char) :
    unescape (piece ++ cs) = c :: unescape cs := by
  rcases h.raw_or_escaped with ⟨rfl, -, hbackslash⟩ | ⟨d, rfl, hd⟩
  · exact unescape_cons_of_ne hbackslash cs
  · exact hd cs

theorem Writes.quotedBody_append {body : List Char} (h : Writes c piece)
    (hline : piece ≠ brokenLine) (hbody : QuotedBody body) : QuotedBody (piece ++ body) := by
  rcases h.raw_or_escaped with ⟨rfl, hquote, hbackslash⟩ | ⟨d, rfl, -⟩
  · exact .plain hquote hbackslash hbody
  · refine .escape ?_ hbody
    rintro rfl
    exact hline rfl

/-- The scanner goes through a character if it goes through what stands behind it. -/
theorem Writes.throughClosingQuote?_append (h : Writes c piece)
    (hcs : throughClosingQuote? cs = none) : throughClosingQuote? (piece ++ cs) = none := by
  rcases h.raw_or_escaped with ⟨rfl, hquote, hbackslash⟩ | ⟨d, rfl, -⟩
  · rw [List.singleton_append, throughClosingQuote?, hcs, Option.map_none]
    · exact hquote
    · rintro d cs rfl
      exact absurd rfl hbackslash
  · rw [List.cons_append, List.singleton_append, throughClosingQuote?, hcs, Option.map_none,
      ite_self]

theorem throughClosingQuote?_brokenLine (cs : List Char) :
    throughClosingQuote? (brokenLine ++ cs) = none := rfl

/-! ### Whole strings -/

theorem unescape_written (h : List.Forall₂ Writes cs pieces) : unescape pieces.flatten = cs := by
  induction h with
  | nil => rfl
  | cons hpiece _ ih => rw [List.flatten_cons, hpiece.unescape_append, ih]

theorem quotedBody_written (h : List.Forall₂ Writes cs pieces) (hlines : brokenLine ∉ pieces) :
    QuotedBody pieces.flatten := by
  induction h with
  | nil => exact .nil
  | cons hpiece _ ih =>
    obtain ⟨hline, hlines⟩ := not_or.mp (mt List.mem_cons.mpr hlines)
    exact hpiece.quotedBody_append (Ne.symm hline) (ih hlines)

theorem throughClosingQuote?_written (h : List.Forall₂ Writes cs pieces)
    (hlines : brokenLine ∈ pieces) (rest : List Char) :
    throughClosingQuote? (pieces.flatten ++ rest) = none := by
  induction h with
  | nil => cases hlines
  | cons hpiece _ ih =>
    rw [List.flatten_cons, List.append_assoc]
    rcases List.mem_cons.mp hlines with rfl | hlines
    · exact throughClosingQuote?_brokenLine _
    · exact hpiece.throughClosingQuote?_append (ih hlines)

theorem stringValue_inQuotes (body : List Char) :
    stringValue (inQuotes body) = String.ofList (unescape body) := by
  rw [stringValue, inQuotes, String.toList_ofList, unquote, if_pos List.getLast?_concat,
    List.dropLast_concat]

/-- What is read of a string that is a text of its own. -/
theorem lex_inQuotes {body : List Char} (h : QuotedBody body) :
    ∃ t, Token.lex (inQuotes body) = .ok [t] ∧ t.kind = .string ∧ t.text = inQuotes body ∧
      Expr.parse [t] = .ok (.literal (.string (String.ofList (unescape body))) t) := by
  have hlexeme : Kind.string.Lexeme ('\x22' :: (body ++ ['\x22'])) := ⟨body, rfl, h⟩
  refine ⟨_, lex_lexeme hlexeme, rfl, rfl, Expr.parse_token ?_⟩
  exact congrArg (fun s => some (Value.string s)) (stringValue_inQuotes body)

/-- It stops at the quote of a string that does not end. -/
theorem lex_inQuotes_eq_error {body : List Char}
    (h : throughClosingQuote? (body ++ ['\x22']) = none) :
    Token.lex (inQuotes body) = .error ⟨'\x22', .start⟩ := by
  rw [Token.lex, inQuotes, String.toList_ofList]
  exact (Offence.string (throughClosingQuote?_eq_none_iff.mp h)).scan .start

/-- However its characters are written, a string between quotes is one token that denotes it, if
no backslash ends a line; if one does, the text fails at its first quote. -/
theorem lex_written (s : String) (pieces : List (List Char))
    (h : List.Forall₂ Writes s.toList pieces) :
    (brokenLine ∉ pieces →
      ∃ t, Token.lex (inQuotes pieces.flatten) = .ok [t] ∧ t.kind = .string ∧
        t.text = inQuotes pieces.flatten ∧ Expr.parse [t] = .ok (.literal (.string s) t)) ∧
    (brokenLine ∈ pieces →
      Token.lex (inQuotes pieces.flatten) = .error ⟨'\x22', .start⟩) := by
  constructor
  · intro hlines
    have hread := lex_inQuotes (quotedBody_written h hlines)
    rwa [unescape_written h, String.ofList_toList] at hread
  · intro hlines
    exact lex_inQuotes_eq_error (throughClosingQuote?_written h hlines _)

/-- A line feed in each of the ways it has beside a backslash, and quotes, backslashes and
control characters next to each other. -/
theorem lex_written_mixed :
    let pieces := [['\\', '\\'], ['n'], ['\\', 'n'], ['\n'], ['\\', '\x22'], ['\\', '0'], ['\t'],
      ['\\', 't'], ['\\', 'r'], ['\\', 'é']]
    ∃ t, Token.lex (inQuotes pieces.flatten) = .ok [t] ∧ t.kind = .string ∧
      t.text = inQuotes pieces.flatten ∧
      Expr.parse [t] = .ok (.literal (.string "\\n\n\n\x22\x00\t\t\ré") t) := by
  intro pieces
  have h : List.Forall₂ Writes "\\n\n\n\x22\x00\t\t\ré".toList pieces :=
    .cons (.itself (by decide)) <| .cons (.raw (by decide) (by decide)) <| .cons .lineFeed <|
    .cons (.raw (by decide) (by decide)) <| .cons (.itself (by decide)) <| .cons .null <|
    .cons (.raw (by decide) (by decide)) <| .cons .tab <| .cons .carriageReturn <|
    .cons (.itself (by decide)) .nil
  exact (lex_written _ pieces h).1 (by decide)

/-- A line feed with a backslash in front of it stands for itself, but is not read. -/
theorem lex_brokenLine :
    List.Forall₂ Writes "\n".toList [brokenLine] ∧
      Token.lex (inQuotes [brokenLine].flatten) = .error ⟨'\x22', .start⟩ := by
  have h : List.Forall₂ Writes "\n".toList [brokenLine] := .cons (.itself (by decide)) .nil
  exact ⟨h, lex_inQuotes_eq_error (throughClosingQuote?_written h (List.mem_singleton_self _) _)⟩

end Text
end MooScript
