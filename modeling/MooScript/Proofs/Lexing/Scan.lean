import MooScript.Proofs.Lexing.Cover

/-! Scanning token by token: what is scanned behind one does not depend on it. -/
namespace MooScript

variable {c : Char} {cs rest text : List Char} {kind : Kind} {tokens : List Token}

theorem Kind.Lexeme.exists_cons (h : kind.Lexeme text) : ∃ c cs, text = c :: cs := by
  cases text with
  | cons c cs => exact ⟨c, cs, rfl⟩
  | nil =>
    cases kind with
    | comment => rcases h with ⟨_, heq, _⟩ | ⟨_, heq, _⟩ <;> cases heq
    | keyword k =>
      have hk := k.isWord
      rw [← show [] = k.text.toList from h] at hk
      exact hk.elim
    | integer => exact absurd rfl h.digits.nonempty
    | float =>
      obtain ⟨c, cs, heq, _⟩ := h.1.exists_cons
      exact ⟨c, cs, heq⟩
    | string =>
      obtain ⟨_, heq, _⟩ := h
      cases heq
    | identifier => exact h.1.elim
    | symbol s => cases s <;> cases h
    | eof => exact h.elim

namespace Lexer

theorem scan_nil (place : Cursor) : scan place [] = .ok [] := by
  rw [scan]

theorem scan_blank (hc : isBlank c = true) (place : Cursor) (cs : List Char) :
    scan place (c :: cs) = scan (place.next c) cs := by
  rw [scan, if_pos hc]

theorem munch?_of_isBlank (hc : isBlank c = true) (cs : List Char) : munch? c cs = none := by
  simp only [isBlank, Bool.or_eq_true, beq_iff_eq] at hc
  rcases hc with (((rfl | rfl) | rfl) | rfl) | rfl <;> rfl

theorem isBlank_of_munch? {taken : Kind × Nat} (hm : munch? c cs = some taken) :
    isBlank c = false := by
  by_contra hc
  rw [munch?_of_isBlank (Bool.not_eq_false _ ▸ hc)] at hm
  cases hm

/-- What comes behind a token does not depend on it. -/
theorem scan_munch (place : Cursor) (hm : munch? c (cs ++ rest) = some (kind, cs.length)) :
    scan place (c :: (cs ++ rest)) =
      (scan (place.after (c :: cs)) rest).map (tokenAt place kind (c :: cs) :: ·) := by
  rw [scan, isBlank_of_munch? hm, if_neg Bool.false_ne_true, hm]
  simp only [List.take_left, List.drop_left]
  cases scan (place.after (c :: cs)) rest <;> rfl

theorem scan_token (place : Cursor) (hm : munch? c (cs ++ rest) = some (kind, cs.length))
    (h : scan (place.after (c :: cs)) rest = .ok tokens) :
    scan place (c :: (cs ++ rest)) = .ok (tokenAt place kind (c :: cs) :: tokens) := by
  rw [scan_munch place hm, h]
  rfl

/-- At the end of a line a lexeme is scanned to one token. -/
theorem scan_lexeme (place : Cursor) (h : kind.Lexeme text) (hrest : EndsLine rest)
    (hscan : scan (place.after text) rest = .ok tokens) :
    scan place (text ++ rest) = .ok (tokenAt place kind text :: tokens) := by
  obtain ⟨c, cs, rfl⟩ := h.exists_cons
  exact scan_token place (munch?_lexeme_append h hrest) hscan

/-- A lexeme that is a text of its own. -/
theorem lex_lexeme (h : kind.Lexeme text) :
    Token.lex (String.ofList text) = .ok [tokenAt .start kind text] := by
  have hscan := scan_lexeme .start h endsLine_nil (scan_nil _)
  rw [List.append_nil] at hscan
  rw [Token.lex, String.toList_ofList]
  exact hscan

/-- A number that is a text of its own. -/
theorem lex_number (h : IsNumber text) :
    Token.lex (String.ofList text) = .ok [tokenAt .start (numberKind text) text] := by
  obtain ⟨c, cs, rfl, _⟩ := h.exists_cons
  exact lex_lexeme (numberKind_lexeme h)

end Lexer
end MooScript
