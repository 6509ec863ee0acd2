import MooScript.Proofs.Syntax.Progress.Expression

/-! The methods of statements keep to what their rules read. -/
namespace MooScript.Parser

variable {α : Type} {arithmetic : Arithmetic} {tokens input ts : List Token} {finish t : Token}
  {k : Kind} {call : (α : Type) → Nonterminal α → Moves α} {steps p p₀ : Nat} {x : Nonterminal Stmt}

/-! ### Rules that stop -/

section

variable (hp : Faces tokens input finish p)

include hp

variable (hcall : Obeys arithmetic tokens input finish call steps)

include hcall

end

end MooScript.Parser
