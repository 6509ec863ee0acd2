import Mathlib.Data.List.Forall2
import MooScript.Failure

/-! Tokens and failures apart from their places. -/
namespace MooScript

/-- The tokens differ in their places at most. -/
structure Token.Alike (t t' : Token) : Prop where
  kind : t'.kind = t.kind
  text : t'.text = t.text

namespace Token

/-- The kinds and texts of the tokens that are no comments. -/
def contents (tokens : List Token) : List (Kind × String) :=
  (tokens.filter (·.kind != .comment)).map fun t => (t.kind, t.text)

theorem forall₂_alike_of_contents {tokens tokens' : List Token}
    (h : contents tokens = contents tokens') :
    List.Forall₂ Alike (tokens.filter (·.kind != .comment))
      (tokens'.filter (·.kind != .comment)) := by
  rw [contents, contents, ← List.forall₂_eq_eq_eq, List.forall₂_map_left_iff,
    List.forall₂_map_right_iff] at h
  refine h.imp fun t t' ht => ?_
  obtain ⟨hkind, htext⟩ := Prod.mk.inj ht
  exact ⟨hkind.symm, htext.symm⟩

/-- The token at the beginning of a text. -/
def unplaced (t : Token) : Token := { t with span := .point 0, position := ⟨1, 1⟩ }

theorem Alike.refl (t : Token) : t.Alike t := ⟨rfl, rfl⟩

theorem Alike.unplaced {t t' : Token} (h : t.Alike t') : t.unplaced = t'.unplaced := by
  rw [Token.unplaced, Token.unplaced, h.kind, h.text]

end Token

/-- The fault at the beginning of a text. -/
def Fault.unplaced : Fault → Fault
  | raised code _ => raised code ⟨⟨1, 1⟩, .point 0⟩
  | unknownFunction name _ => unknownFunction name ⟨⟨1, 1⟩, .point 0⟩
  | unimplementedVerb verb _ => unimplementedVerb verb ⟨⟨1, 1⟩, .point 0⟩

/-- The error of a token list whose tokens all stand at the beginning of a text. -/
def SyntaxError.unplaced : SyntaxError → SyntaxError
  | unexpectedToken expected found => unexpectedToken expected found.unplaced
  | unexpectedEnd expected finish => unexpectedEnd expected finish.unplaced
  | invalidAssignment target => invalidAssignment target.unplaced

namespace Failure

def unplaced : Failure → Failure
  | lexical e => lexical { e with cursor := .start }
  | syntactic e => syntactic e.unplaced
  | runtime fault => runtime fault.unplaced

/-- The failures differ in their places at most: all that is reported of them besides is the
same. -/
structure Alike (f f' : Failure) : Prop where
  unplaced : f.unplaced = f'.unplaced
  code : f.code = f'.code
  label : f.label = f'.label
  summary : f.summary = f'.summary
  help? : f.help? = f'.help?
  expected? : f.expected? = f'.expected?
  found? : f.found? = f'.found?
  subject? : f.subject? = f'.subject?

/-- What is reported apart from the place is reported of the failure without it. -/
theorem alike_unplaced (f : Failure) :
    f.code = f.unplaced.code ∧ f.label = f.unplaced.label ∧ f.summary = f.unplaced.summary ∧
      f.help? = f.unplaced.help? ∧ f.expected? = f.unplaced.expected? ∧
      f.found? = f.unplaced.found? ∧ f.subject? = f.unplaced.subject? := by
  cases f with
  | lexical e => exact ⟨rfl, rfl, rfl, rfl, rfl, rfl, rfl⟩
  | syntactic e => cases e <;> exact ⟨rfl, rfl, rfl, rfl, rfl, rfl, rfl⟩
  | runtime fault => cases fault <;> exact ⟨rfl, rfl, rfl, rfl, rfl, rfl, rfl⟩

theorem alike_of_unplaced {f f' : Failure} (h : f.unplaced = f'.unplaced) : f.Alike f' := by
  obtain ⟨hcode, hlabel, hsummary, hhelp, hexpected, hfound, hsubject⟩ := f.alike_unplaced
  obtain ⟨hcode', hlabel', hsummary', hhelp', hexpected', hfound', hsubject'⟩ := f'.alike_unplaced
  rw [← h] at hcode' hlabel' hsummary' hhelp' hexpected' hfound' hsubject'
  exact ⟨h, hcode.trans hcode'.symm, hlabel.trans hlabel'.symm, hsummary.trans hsummary'.symm,
    hhelp.trans hhelp'.symm, hexpected.trans hexpected'.symm, hfound.trans hfound'.symm,
    hsubject.trans hsubject'.symm⟩

end Failure
end MooScript
