import Mathlib
import MooScript.Proofs.Literal.Legible
import MooScript.Proofs.Syntax.Progress.Statement

/-! Progress of the parser. Every method returns, wherever the cursor stands: the cursor only goes
on, up to the first end of the input, and so the loops come to an end. One thing alone can stop it,
where integers are checked: the negation of the least one, which no text has as a token. -/
namespace MooScript.Parser

variable {α : Type} {arithmetic : Arithmetic} {tokens input ts : List Token} {finish : Token}
  {p stop : Nat}

/-- From the cursor on, the first end of the input stands at `stop`. -/
structure EndsAt (tokens : List Token) (p stop : Nat) : Prop where
  le : p ≤ stop
  ends : ∃ t, tokens[stop]? = some t ∧ t.kind = .eof
  first : ∀ i, p ≤ i → i < stop → ∀ t, tokens[i]? = some t → t.kind ≠ .eof

theorem EndsAt.lt (h : EndsAt tokens p stop) : stop < tokens.length := by
  obtain ⟨t, ht, -⟩ := h.ends
  exact (List.getElem?_eq_some_iff.mp ht).1

theorem EndsAt.eq {stop' : Nat} (h : EndsAt tokens p stop) (h' : EndsAt tokens p stop') :
    stop = stop' := by
  obtain ⟨t, ht, hkind⟩ := h.ends
  obtain ⟨t', ht', hkind'⟩ := h'.ends
  rcases Nat.lt_trichotomy stop stop' with hlt | heq | hlt
  · exact absurd hkind (h'.first stop h.le hlt t ht)
  · exact heq
  · exact absurd hkind' (h.first stop' h'.le hlt t' ht')

/-- No text has this number as a token, since its sign would be one of its own. -/
example :
    let hash : Token := ⟨.symbol .hash, ⟨0, 1⟩, "#", ⟨1, 1⟩⟩
    let minus : Token := ⟨.symbol .minus, ⟨1, 2⟩, "-", ⟨1, 2⟩⟩
    let number : Token := ⟨.integer, ⟨2, 22⟩, "-9223372036854775808", ⟨1, 3⟩⟩
    (run .checked (held [hash, minus, number]) 128 _ .atom 0).result = .error .overflow ∧
      (run .wrapping (held [hash, minus, number]) 128 _ .atom 0).result =
        .error (.refused (.unexpectedToken .objectNumber number)) := by
  intro hash minus number
  constructor <;> cbv

end MooScript.Parser
