import MooScript.Proofs.Syntax.Progress.Invariant

/-! The methods of expressions keep to what their rules read. -/
namespace MooScript.Parser

open Grammar (Level)

variable {arithmetic : Arithmetic} {tokens input ts : List Token} {finish t token : Token}
  {call : (α : Type) → Nonterminal α → Moves α} {steps p : Nat}

/-! ### Rules that stop -/

theorem propertyTail_of_not {object : Expr} (h : Grammar.startsWith (.symbol .dot) ts = false) :
    Grammar.propertyTail finish object ts = .keep object ts := by
  cases ts with
  | nil => rw [Grammar.propertyTail]
  | cons t ts => rw [Grammar.propertyTail, if_neg (ne_of_startsWith h)]

/-- The closing symbol ends the list where it stands in the place of a comma, and so it does behind
a comma. -/
theorem separatedTail_of_closing {closing : Symbol} (ht : t.kind = .symbol closing) :
    (Grammar.separatedTail finish closing (t :: ts)).outcome =
      (Grammar.listTail finish closing (t :: ts)).outcome := by
  rw [Grammar.separatedTail, Grammar.listTail, if_pos ht, if_pos ht]

section

variable (hcall : Obeys arithmetic tokens input finish call steps)
  (hp : Faces tokens input finish p)

include hcall hp

theorem keeps_property (h : Enough input .property p (steps + 1)) :
    Keeps arithmetic input p (property tokens call steps p)
      (Grammar.property finish (input.drop p)).outcome := by
  rw [property, Grammar.property, Reading.outcome_andThen]
  have hobject := hcall.tighter .unary h hp (Nat.le_refl p) (by decide)
  refine .bind hp hobject fun object p₁ hp₁ hle _ => ?_
  dsimp only
  refine .loop hp₁ (fun object ts => (Grammar.propertyTail finish object ts).outcome)
    (fun number object again p' hp' hle' hnumber hagain => ?_) hle (h.loop hle) (by omega)
  rw [propertyTurn]
  refine .sees hp' (by decide) (fun ts => (Grammar.propertyTail finish object ts).outcome)
    (fun t ht hd hp₂ => ?_) (fun hno => ?_)
  · refine .note (Nat.le_trans (Nat.le_of_add_right_le hnumber) hp₂.inside) ?_
    refine .glance (glances_advance hp' hd) (Nat.le_succ p') ?_
    rw [Grammar.propertyTail, if_pos ht, Reading.outcome_widen]
    dsimp only [List.length_cons]
    simp only [Reading.outcome_widen, Reading.outcome_andThen]
    refine .bind hp₂ (.expect hp₂ (by decide)) fun name p₃ hp₃ hle₃ _ => ?_
    exact hagain _ p₃ hp₃ (by omega)
  · rw [propertyTail_of_not hno]
    exact .pure object hp'.inside

theorem keeps_range (h : Enough input .range p (steps + 1)) :
    Keeps arithmetic input p (range tokens call p)
      (Nonterminal.range.reading finish (input.drop p)) := by
  refine .led hp (by decide) (fun ts => (Grammar.atom finish ts).outcome) fun t ht hp₁ => ?_
  rw [Grammar.atom, ht]
  dsimp only [List.length_cons]
  simp only [Reading.outcome_andThen, Reading.outcome_widen, Reading.outcome_map]
  have hfirst := hcall.later .expr h hp₁ (Nat.lt_succ_self p)
  refine .bind hp₁ hfirst fun first p₂ hp₂ hle₂ _ => ?_
  refine .bind hp₂ (.expect hp₂ (by decide)) fun _ p₃ hp₃ hle₃ _ => ?_
  have hlast := hcall.later .expr h hp₃ (by omega)
  refine .bind hp₃ hlast fun last p₄ hp₄ _ _ => ?_
  refine .bind hp₄ (.expect hp₄ (by decide)) fun _ p₅ hp₅ _ _ => ?_
  exact .pure _ hp₅.inside

end

end MooScript.Parser
