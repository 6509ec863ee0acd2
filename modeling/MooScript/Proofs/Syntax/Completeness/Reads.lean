import MooScript.Proofs.Syntax.Completeness.Tier
import MooScript.Proofs.Syntax.Spelling
import MooScript.Proofs.Syntax.Tokens

/-! What it is that an expression is read back from its words, at its tier and at looser ones. -/
namespace MooScript

open Grammar Reading

variable {finish t : Token} {k : Nat} {ts mid rest : List Token}

def Kind.startsAtom : Kind → Bool
  | .identifier | .integer | .float | .string | .keyword .true_ | .keyword .false_
  | .symbol .leftParen | .symbol .leftBrace | .symbol .leftBracket | .symbol .backtick
  | .symbol .hash | .symbol .dollar => true
  | _ => false

def Kind.startsExpr (k : Kind) : Bool := k.startsAtom || (unaryOperator? k).isSome

namespace Expr

theorem startsAtom_of_denotes {value : Value} (h : Denotes t value) : t.kind.startsAtom = true := by
  have hall : ∀ k ∈ Kind.denoting, k.startsAtom = true := by decide
  exact hall t.kind (kind_mem_denoting h)

/-- The first word of an expression; a unary operator is in front of no atom or call. -/
theorem words_head (e : Expr) (he : e.Conformant) :
    ∃ w ws, e.words = w :: ws ∧
      (w.kind.startsAtom = true ∨ e.tier ≤ 7 ∧ (unaryOperator? w.kind).isSome = true) := by
  cases e with
  | binary op left right t =>
    have hleft : left.Conformant := by
      cases op with
      | assign => exact he.2.1
      | _ => exact he.2.2.1
    obtain ⟨w, ws, hws, hw⟩ := left.words_head hleft
    refine ⟨w, ws ++ .own (.symbol op.symbol) t :: right.words, by rw [words, hws]; rfl, ?_⟩
    exact hw.imp_right fun h => ⟨Nat.le_trans op.tier_le (by decide), h.2⟩
  | unary op operand t => exact ⟨_, _, rfl, .inr ⟨Nat.le_refl 7, by cases op <;> rfl⟩⟩
  | literal value t =>
    cases value with
    | object id => exact ⟨_, _, rfl, .inl rfl⟩
    | _ => exact ⟨_, _, rfl, .inl (startsAtom_of_denotes he)⟩
  | property object name t =>
    rw [words]
    split
    · exact ⟨_, _, rfl, .inl rfl⟩
    · rcases he with hsystem | ⟨_, hobject⟩
      · contradiction
      obtain ⟨w, ws, hws, hw⟩ := object.words_head hobject
      refine ⟨w, ws ++ [.own (.symbol .dot) t, .name name], by rw [hws]; rfl, ?_⟩
      refine hw.imp_right fun h => ⟨?_, h.2⟩
      rw [tier, if_neg ‹_›]
      decide
  | call callee args t =>
    obtain ⟨hcallee, hconformant, _⟩ := he
    obtain ⟨w, ws, hws, hw⟩ := callee.words_head hconformant
    refine ⟨w, ws ++ argumentWords args, by rw [words, hws]; rfl,
      .inl (hw.resolve_right fun h => ?_)⟩
    rw [tier_of_isCallee hcallee] at h
    omega
  | verbCall object verb args t =>
    rw [words]
    split
    · exact ⟨_, _, rfl, .inl rfl⟩
    · rcases he with ⟨hsystem | ⟨htier, hobject⟩, _⟩
      · contradiction
      obtain ⟨w, ws, hws, hw⟩ := object.words_head hobject
      refine ⟨w, ws ++ .own (.symbol .colon) t :: .name verb :: argumentWords args,
        by rw [hws]; rfl, .inl (hw.resolve_right fun h => ?_)⟩
      omega
  | grouping | identifier | list | range | recover => exact ⟨_, _, rfl, .inl rfl⟩

theorem spelled_head {e : Expr} (he : e.Conformant) (h : Spelled ts e.words rest) :
    ∃ t mid, ts = t :: mid ∧ t.kind.startsExpr = true ∧
      (8 ≤ e.tier → unaryOperator? t.kind = none) := by
  obtain ⟨w, ws, hws, hw⟩ := e.words_head he
  rw [hws] at h
  obtain ⟨t, mid, rfl, ht, _⟩ := Spelled.cons_iff.mp h
  rw [← ht.1] at hw
  refine ⟨t, mid, rfl, ?_, fun htier => ?_⟩
  · rcases hw with h | ⟨_, h⟩ <;> simp [Kind.startsExpr, h]
  · rcases hw with h | ⟨_, h⟩
    · cases hkind : t.kind with
      | symbol s => cases s <;> first | rfl | (rw [hkind] at h; cases h)
      | _ => rfl
    · omega

/-- Where its words are spelled, the rule of tier `k` reads the expression apart from its tokens. -/
def Parses (finish : Token) (k : Nat) (e : Expr) : Prop :=
  ∀ ts rest, Spelled ts e.words rest → Stops k rest →
    ∃ e', e'.bare = e.bare ∧ (rule finish k ts).Yields e' rest

/-- Behind the expression the rule of tier `k` goes on, as if it had read it. -/
def Continues (finish : Token) (k : Nat) (e : Expr) : Prop :=
  ∀ ts mid, Spelled ts e.words mid → Stops (k + 1) mid →
    ∃ e', e'.bare = e.bare ∧ ∀ x rest, (tail finish k e' mid).Yields x rest →
      (rule finish k ts).Yields x rest

/-- Tiers at which an expression can be the left part of another of the tier. -/
def groupsLeft : Nat → Bool
  | 1 | 2 | 3 | 4 | 5 | 6 | 8 => true
  | _ => false

theorem groupsLeft_tier (level : Level) : groupsLeft level.tier = true := by
  cases level <;> rfl

/-- The expression is read at its tier and at all below. -/
def Reads (finish : Token) (e : Expr) : Prop :=
  ∀ k ≤ e.tier, Parses finish k e ∧ (k < e.tier ∨ groupsLeft k = true → Continues finish k e)

variable {e left right object : Expr} {args : List Expr}

theorem Continues.parses (h : Continues finish k e) : Parses finish k e := by
  intro ts rest hs hstop
  obtain ⟨e', hbare, hcontinue⟩ := h ts rest hs (hstop.mono (Nat.le_succ k))
  exact ⟨e', hbare, hcontinue e' rest (tail_yields_of_stops hstop)⟩

theorem Parses.continues (he : e.Conformant) (hk : k < e.tier) (h : Parses finish (k + 1) e) :
    Continues finish k e := by
  intro ts mid hs hstop
  obtain ⟨e', hbare, hy⟩ := h ts mid hs hstop
  refine ⟨e', hbare, fun x rest hx => ?_⟩
  refine rule_yields_of_tail (Nat.lt_of_lt_of_le hk e.tier_le) (fun hseven t ht => ?_) hy hx
  obtain ⟨t', _, rfl, _, hhead⟩ := spelled_head he hs
  cases ht
  exact hhead (by omega)

theorem reads_of_top (he : e.Conformant) (htop : Parses finish e.tier e)
    (hleft : groupsLeft e.tier = true → Continues finish e.tier e) : Reads finish e := by
  -- Down from its own tier: a looser rule reads what the next tighter one read and stops there.
  have hbelow : ∀ d k, k + d = e.tier → Parses finish k e := by
    intro d
    induction d with
    | zero =>
      rintro k rfl
      exact htop
    | succ d ih =>
      intro k hk
      exact ((ih (k + 1) (by omega)).continues he (by omega)).parses
  intro k hk
  refine ⟨hbelow (e.tier - k) k (by omega), fun h => ?_⟩
  by_cases hlt : k < e.tier
  · exact (hbelow (e.tier - (k + 1)) (k + 1) (by omega)).continues he hlt
  · obtain rfl : k = e.tier := by omega
    exact hleft (h.resolve_left hlt)

theorem reads_of_not_groupsLeft (he : e.Conformant) (hgroups : groupsLeft e.tier = false)
    (htop : Parses finish e.tier e) : Reads finish e :=
  reads_of_top he htop fun h => absurd h (ne_true_of_eq_false hgroups)

end Expr
end MooScript
