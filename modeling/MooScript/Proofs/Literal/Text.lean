import Mathlib
import MooScript.Proofs.Literal.Written
import MooScript.Text.Quoted

/-! Quoted text read back: all of it but the characters that are escaped by their number. -/
namespace MooScript

open Lexer Syntax

namespace Text

variable {c : Char} {cs : List Char}

theorem mem_hexDigits {n : ℕ} (h : c ∈ Nat.toDigits 16 n) : ∃ k < 16, c = Nat.digitChar k := by
  induction n using Nat.strong_induction_on with
  | _ n ih =>
    rw [Nat.toDigits_eq_if (by decide)] at h
    split at h
    · exact ⟨n, ‹_›, List.mem_singleton.mp h⟩
    · rcases List.mem_append.mp h with h | h
      · exact ih (n / 16) (Nat.div_lt_self (by omega) (by decide)) h
      · exact ⟨n % 16, Nat.mod_lt n (by decide), List.mem_singleton.mp h⟩

/-- Whether the character is escaped by its number. -/
def isNumbered (c : Char) : Bool :=
  isUnprintable c && decide (c ∉ ['\x00', '\t', '\r', '\n', '\x22', '\\'])

/-- The number of a character in braces. -/
def number (c : Char) : List Char := '\x7b' :: (Nat.toDigits 16 c.toNat ++ ['\x7d'])

/-- What an escaped character is read back as: an escape by number is not known, so that only its
backslash is lost. -/
def reread (c : Char) : List Char := if isNumbered c then 'u' :: number c else [c]

theorem reread_of_numbered (h : isNumbered c = true) : reread c = 'u' :: number c := if_pos h

theorem reread_of_not_numbered (h : isNumbered c = false) : reread c = [c] := by
  rw [reread, h]
  rfl

/-- The characters of a number and its braces stand for themselves. -/
theorem plain_of_mem_number {d : Char} (h : d ∈ number c) : d ≠ '\x22' ∧ d ≠ '\\' := by
  have hdigit : ∀ k < 16, Nat.digitChar k ≠ '\x22' ∧ Nat.digitChar k ≠ '\\' := by decide
  simp only [number, List.mem_cons, List.mem_append, List.not_mem_nil, or_false] at h
  rcases h with rfl | h | rfl
  · decide
  · obtain ⟨k, hk, rfl⟩ := mem_hexDigits h
    exact hdigit k hk
  · decide

theorem isNumbered_eq_false (h : c ∈ ['\x00', '\t', '\r', '\n', '\x22', '\\']) :
    isNumbered c = false := by
  rw [isNumbered, decide_eq_false (not_not_intro h), Bool.and_false]

theorem toList_numbered (c : Char) :
    ("\\u\x7b" ++ hex c.toNat ++ "\x7d").toList = '\\' :: 'u' :: number c := by
  simp only [hex, String.toList_append, String.toList_ofList]
  rw [List.append_assoc]
  rfl

/-- A character is written by its number, or in one of the ways that are read back. -/
theorem escaped_cases (c : Char) :
    (isNumbered c = true ∧ escaped c = '\\' :: 'u' :: number c) ∨
    (isNumbered c = false ∧ Writes c (escaped c) ∧ escaped c ≠ brokenLine) := by
  by_cases hspecial : c ∈ ['\x00', '\t', '\r', '\n', '\x22', '\\']
  · refine .inr ⟨isNumbered_eq_false hspecial, ?_⟩
    simp only [List.mem_cons, List.not_mem_nil, or_false] at hspecial
    rcases hspecial with rfl | rfl | rfl | rfl | rfl | rfl
    · exact ⟨.null, by decide⟩
    · exact ⟨.tab, by decide⟩
    · exact ⟨.carriageReturn, by decide⟩
    · exact ⟨.lineFeed, by decide⟩
    · exact ⟨.itself (by decide), by decide⟩
    · exact ⟨.itself (by decide), by decide⟩
  · have hne := hspecial
    simp only [List.mem_cons, List.not_mem_nil, or_false, not_or] at hne
    obtain ⟨hnull, htab, hreturn, hnewline, hquote, hbackslash⟩ := hne
    have hnumbered : isNumbered c = isUnprintable c := by
      rw [isNumbered, decide_eq_true hspecial, Bool.and_true]
    have hescaped : escaped c = if isUnprintable c then
        ("\\u\x7b" ++ hex c.toNat ++ "\x7d").toList else [c] := by
      simp only [escaped, hnull, htab, hreturn, hnewline, hquote, hbackslash, if_false,
        decide_false, Bool.or_self, Bool.false_eq_true]
    rw [hnumbered, hescaped]
    cases isUnprintable c with
    | true => exact .inl ⟨rfl, toList_numbered c⟩
    | false =>
      refine .inr ⟨rfl, .raw hquote hbackslash, fun h => ?_⟩
      cases congrArg List.length h

theorem quotedBody_append_of_plain {cs body : List Char} (hbody : QuotedBody body)
    (h : ∀ c ∈ cs, c ≠ '\x22' ∧ c ≠ '\\') : QuotedBody (cs ++ body) := by
  induction cs with
  | nil => exact hbody
  | cons c cs ih =>
    obtain ⟨hc, hcs⟩ := List.forall_mem_cons.mp h
    exact .plain hc.1 hc.2 (ih hcs)

theorem quotedBody_escaped_append {body : List Char} (h : QuotedBody body) (c : Char) :
    QuotedBody (escaped c ++ body) := by
  rcases escaped_cases c with ⟨-, heq⟩ | ⟨-, hwrites, hline⟩
  · rw [heq]
    exact .escape (by decide) (quotedBody_append_of_plain h fun d hd => plain_of_mem_number hd)
  · exact hwrites.quotedBody_append hline h

/-- What stands between the quotes. -/
theorem quotedBody_escaped (cs : List Char) : QuotedBody (cs.flatMap escaped) := by
  induction cs with
  | nil => exact .nil
  | cons c cs ih =>
    rw [List.flatMap_cons]
    exact quotedBody_escaped_append ih c

theorem unescape_append_of_ne {pre : List Char} (h : ∀ c ∈ pre, c ≠ '\\') (cs : List Char) :
    unescape (pre ++ cs) = pre ++ unescape cs := by
  induction pre with
  | nil => rfl
  | cons c pre ih =>
    obtain ⟨hc, hpre⟩ := List.forall_mem_cons.mp h
    rw [List.cons_append, unescape_cons_of_ne hc, ih hpre, List.cons_append]

theorem unescape_escaped_append (c : Char) (cs : List Char) :
    unescape (escaped c ++ cs) = reread c ++ unescape cs := by
  rcases escaped_cases c with ⟨hc, heq⟩ | ⟨hc, hwrites, -⟩
  · rw [heq, reread_of_numbered hc, List.cons_append, List.cons_append,
      unescape_itself (by decide), unescape_append_of_ne fun d hd => (plain_of_mem_number hd).2,
      List.cons_append]
  · rw [reread_of_not_numbered hc]
    exact hwrites.unescape_append cs

theorem unescape_escaped (cs : List Char) :
    unescape (cs.flatMap escaped) = cs.flatMap reread := by
  induction cs with
  | nil => rfl
  | cons c cs ih => rw [List.flatMap_cons, List.flatMap_cons, unescape_escaped_append, ih]

/-- A quoted text is read back as that of its characters. -/
theorem stringValue_quoted (s : String) :
    stringValue (quoted s) = String.ofList (s.toList.flatMap reread) := by
  rw [← unescape_escaped]
  exact stringValue_inQuotes _

theorem length_le_flatMap_reread (cs : List Char) : cs.length ≤ (cs.flatMap reread).length := by
  induction cs with
  | nil => exact Nat.le_refl 0
  | cons c cs ih =>
    have hpos : 1 ≤ (reread c).length := by
      cases hc : isNumbered c with
      | true =>
        rw [reread_of_numbered hc]
        exact Nat.le_add_left 1 _
      | false =>
        rw [reread_of_not_numbered hc]
        exact Nat.le_refl 1
    rw [List.flatMap_cons, List.length_append, List.length_cons]
    omega

/-- Nothing is lost if no character is escaped by its number, and only then. -/
theorem flatMap_reread_eq_self_iff :
    cs.flatMap reread = cs ↔ ∀ c ∈ cs, isNumbered c = false := by
  induction cs with
  | nil => exact iff_of_true rfl (List.forall_mem_nil _)
  | cons c cs ih =>
    rw [List.flatMap_cons, List.forall_mem_cons]
    cases hc : isNumbered c with
    | true =>
      refine iff_of_false (fun h => ?_) fun h => absurd h.1 (by decide)
      have hlength := congrArg List.length h
      have hle := length_le_flatMap_reread cs
      rw [reread_of_numbered hc, number] at hlength
      simp only [List.length_append, List.length_cons] at hlength
      omega
    | false =>
      rw [reread_of_not_numbered hc, List.singleton_append, List.cons_inj_right, ih]
      exact (and_iff_right rfl).symm

end Text
end MooScript
