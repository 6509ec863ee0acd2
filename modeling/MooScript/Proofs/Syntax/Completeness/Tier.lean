import MooScript.Proofs.Reading
import MooScript.Proofs.Syntax.Conformance

/-! The rules for expressions by tier, and where each of them stops. -/
namespace MooScript

/-- The tier at which a token carries on the expression before it. -/
def Kind.joinTier? : Kind → Option Nat
  | .symbol .equal => some 0
  | .symbol .pipePipe | .symbol .caret => some 1
  | .symbol .ampAmp => some 2
  | .symbol .less | .symbol .lessEqual | .symbol .greater | .symbol .greaterEqual
  | .symbol .equalEqual | .symbol .bangEqual => some 3
  | .symbol .plus | .symbol .minus => some 4
  | .symbol .star | .symbol .slash | .symbol .percent => some 5
  | .symbol .dot => some 6
  | .symbol .colon => some 8
  | .symbol .leftParen => some 9
  | _ => none

theorem BinaryOp.joinTier?_symbol (op : BinaryOp) :
    Kind.joinTier? (.symbol op.symbol) = some op.tier := by
  cases op <;> rfl

namespace Grammar

open Reading

variable {finish : Token} {k j : Nat} {t : Token} {ts mid rest : List Token} {e e' : Expr}

/-- No token carries on an expression of tier `k` or above. -/
def Stops (k : Nat) (ts : List Token) : Prop :=
  ∀ t ∈ ts.head?, ∀ j ∈ t.kind.joinTier?, j < k

theorem stops_nil : Stops k [] := fun t ht => absurd ht (Option.not_mem_none t)

theorem stops_cons (h : ∀ j ∈ t.kind.joinTier?, j < k) : Stops k (t :: ts) := by
  intro t' ht' j hj
  cases ht'
  exact h j hj

theorem stops_of_joinTier? (h : t.kind.joinTier? = some j) (hj : j < k) : Stops k (t :: ts) := by
  refine stops_cons fun j' hj' => ?_
  rw [h] at hj'
  cases hj'
  exact hj

theorem stops_of_kind {kind : Kind} (ht : t.kind = kind) (h : kind.joinTier? = none) :
    Stops k (t :: ts) := by
  refine stops_cons fun j hj => ?_
  rw [ht, h] at hj
  cases hj

theorem Stops.mono (h : Stops j ts) (hk : j ≤ k) : Stops k ts :=
  fun t ht i hi => Nat.lt_of_lt_of_le (h t ht i hi) hk

theorem Stops.kind_ne {s : Symbol} (h : Stops k (t :: ts))
    (hs : Kind.joinTier? (.symbol s) = some j) (hj : k ≤ j) : t.kind ≠ .symbol s := by
  intro ht
  have hlt := h t rfl j (by rw [ht, hs]; rfl)
  omega

theorem Stops.operator?_eq_none {level : Level} (h : Stops level.tier (t :: ts)) :
    level.operator? t.kind = none := by
  cases hop : level.operator? t.kind with
  | none => rfl
  | some op =>
    obtain ⟨hkind, htier⟩ := Level.operator?_eq_some_iff.mp hop
    exact absurd hkind (h.kind_ne op.joinTier?_symbol (Nat.le_of_eq htier.symm))

/-- The rule that reads expressions of tier `k` and above. -/
def rule (finish : Token) : Nat → (ts : List Token) → Rule Expr ts
  | 0 => expr finish
  | 1 => chain finish .disjunction
  | 2 => chain finish .conjunction
  | 3 => chain finish .comparison
  | 4 => chain finish .additive
  | 5 => chain finish .multiplicative
  | 6 => property finish
  | 7 => unary finish
  | 8 => primary finish
  | _ => atom finish

/-- How the rule of tier `k` goes on behind an expression of a higher tier. -/
def tail (finish : Token) : Nat → Expr → (ts : List Token) → Tail Expr ts
  | 0 => assignmentTail finish
  | 1 => chainTail finish .disjunction
  | 2 => chainTail finish .conjunction
  | 3 => chainTail finish .comparison
  | 4 => chainTail finish .additive
  | 5 => chainTail finish .multiplicative
  | 6 => propertyTail finish
  | 8 => verbTail finish
  | _ => fun e ts => keep e ts

theorem rule_nine : rule finish 9 = atom finish := rfl

theorem rule_level (level : Level) : rule finish level.tier = chain finish level := by
  cases level <;> rfl

theorem tail_level (level : Level) : tail finish level.tier = chainTail finish level := by
  cases level <;> rfl

theorem operand_eq_rule (level : Level) (ts : List Token) :
    operand finish level ts = rule finish (level.tier + 1) ts := by
  rw [operand]
  split
  · rename_i next hnext
    rw [← Level.tier_tighter hnext, rule_level]
  · rw [Level.tier_of_not_tighter ‹_›]
    rfl

theorem chainTail_yields_of_stops {level : Level} (h : Stops level.tier ts) :
    (chainTail finish level e ts).Yields e ts := by
  cases ts with
  | nil =>
    rw [chainTail]
    exact yields_keep
  | cons t ts =>
    rw [chainTail, h.operator?_eq_none]
    exact yields_keep

theorem tail_yields_of_stops (h : Stops k ts) : (tail finish k e ts).Yields e ts := by
  match k with
  | 0 =>
    cases ts with
    | nil =>
      rw [tail, assignmentTail]
      exact yields_keep
    | cons t ts =>
      rw [tail, assignmentTail, if_neg (h.kind_ne rfl (Nat.le_refl 0))]
      exact yields_keep
  | 1 => exact chainTail_yields_of_stops h
  | 2 => exact chainTail_yields_of_stops h
  | 3 => exact chainTail_yields_of_stops h
  | 4 => exact chainTail_yields_of_stops h
  | 5 => exact chainTail_yields_of_stops h
  | 6 =>
    cases ts with
    | nil =>
      rw [tail, propertyTail]
      exact yields_keep
    | cons t ts =>
      rw [tail, propertyTail, if_neg (h.kind_ne rfl (Nat.le_refl 6))]
      exact yields_keep
  | 8 =>
    cases ts with
    | nil =>
      rw [tail, verbTail]
      exact yields_keep
    | cons t ts =>
      rw [tail, verbTail, if_neg (h.kind_ne rfl (Nat.le_refl 8))]
      exact yields_keep
  | 7 => exact yields_keep
  | k + 9 => exact yields_keep

theorem chain_yields_of_tail {level : Level}
    (h : (rule finish (level.tier + 1) ts).Yields e mid)
    (ht : (chainTail finish level e mid).Yields e' rest) :
    (chain finish level ts).Yields e' rest := by
  rw [← operand_eq_rule] at h
  rw [chain]
  exact h.andThen ht

/-- A rule reads what the next tighter one reads, and goes on from there. -/
theorem rule_yields_of_tail (hk : k < 9)
    (hhead : k = 7 → ∀ t ∈ ts.head?, unaryOperator? t.kind = none)
    (h : (rule finish (k + 1) ts).Yields e mid) (ht : (tail finish k e mid).Yields e' rest) :
    (rule finish k ts).Yields e' rest := by
  match k with
  | 0 =>
    rw [rule, expr]
    exact h.andThen ht
  | 1 => exact chain_yields_of_tail h ht
  | 2 => exact chain_yields_of_tail h ht
  | 3 => exact chain_yields_of_tail h ht
  | 4 => exact chain_yields_of_tail h ht
  | 5 => exact chain_yields_of_tail h ht
  | 6 =>
    rw [rule, property]
    exact h.andThen ht
  | 7 =>
    obtain ⟨rfl, rfl⟩ := yields_keep_iff.mp ht
    cases ts with
    | nil =>
      rw [rule, unary]
      exact h
    | cons t ts =>
      rw [rule, unary, hhead rfl t rfl]
      exact h
  | 8 =>
    rw [rule, primary]
    exact h.andThen ht
  | k + 9 => omega

end Grammar
end MooScript
