import MooScript.Syntax.Grammar.Statement

/-! How tightly expressions bind, and which trees respect it. -/
namespace MooScript

def BinaryOp.symbol : BinaryOp → Symbol
  | assign => .equal
  | or => .pipePipe
  | xor => .caret
  | and => .ampAmp
  | eq => .equalEqual
  | ne => .bangEqual
  | lt => .less
  | le => .lessEqual
  | gt => .greater
  | ge => .greaterEqual
  | add => .plus
  | sub => .minus
  | mul => .star
  | div => .slash
  | rem => .percent

def UnaryOp.symbol : UnaryOp → Symbol
  | neg => .minus
  | not => .bang

/-- The tier of a level's operators: the tighter they bind, the more. Assignments are below, of tier
0; properties, unary operators, verb calls and atoms are above, of tiers 6 to 9. -/
def Grammar.Level.tier : Grammar.Level → Nat
  | disjunction => 1
  | conjunction => 2
  | comparison => 3
  | additive => 4
  | multiplicative => 5

def BinaryOp.tier : BinaryOp → Nat
  | assign => 0
  | or | xor => 1
  | and => 2
  | eq | ne | lt | le | gt | ge => 3
  | add | sub => 4
  | mul | div | rem => 5

theorem BinaryOp.tier_le (op : BinaryOp) : op.tier ≤ 5 := by
  cases op <;> decide

theorem BinaryOp.exists_level {op : BinaryOp} (h : 0 < op.tier) :
    ∃ level : Grammar.Level, level.tier = op.tier := by
  cases op with
  | assign => exact absurd h (Nat.lt_irrefl 0)
  | or | xor => exact ⟨.disjunction, rfl⟩
  | and => exact ⟨.conjunction, rfl⟩
  | eq | ne | lt | le | gt | ge => exact ⟨.comparison, rfl⟩
  | add | sub => exact ⟨.additive, rfl⟩
  | mul | div | rem => exact ⟨.multiplicative, rfl⟩

namespace Grammar

theorem Level.tier_pos (level : Level) : 0 < level.tier := by
  cases level <;> decide

theorem Level.tier_tighter {level next : Level} (h : level.tighter? = some next) :
    next.tier = level.tier + 1 := by
  cases level <;> cases h <;> rfl

theorem Level.tier_of_not_tighter {level : Level} (h : level.tighter? = none) :
    level.tier = 5 := by
  cases level <;> cases h
  rfl

theorem Level.operator?_eq_some_iff {level : Level} {k : Kind} {op : BinaryOp} :
    level.operator? k = some op ↔ k = .symbol op.symbol ∧ op.tier = level.tier := by
  constructor
  · intro h
    unfold operator? at h
    split at h <;> cases h <;> exact ⟨rfl, rfl⟩
  · rintro ⟨rfl, h⟩
    cases level <;> cases op <;> first | rfl | cases h

theorem unaryOperator?_eq_some_iff {k : Kind} {op : UnaryOp} :
    unaryOperator? k = some op ↔ k = .symbol op.symbol := by
  constructor
  · intro h
    unfold unaryOperator? at h
    split at h <;> cases h <;> rfl
  · rintro rfl
    cases op <;> rfl

end Grammar

namespace Syntax

theorem ne_object_of_literalValue? {t : Token} {value : Value} (h : literalValue? t = some value)
    (id : ObjectId) : value ≠ .object id := by
  rintro rfl
  unfold literalValue? at h
  split at h <;> simp at h

/-- Only number and string tokens have a value, of their kind and text alone. -/
theorem kind_of_literalValue? {t : Token} {value : Value} (h : literalValue? t = some value) :
    t.kind = .integer ∨ t.kind = .float ∨ t.kind = .string := by
  unfold literalValue? at h
  split at h <;> simp_all

theorem literalValue?_congr {t t' : Token} (hkind : t'.kind = t.kind) (htext : t'.text = t.text) :
    literalValue? t' = literalValue? t := by
  unfold literalValue? stringValue
  rw [hkind, htext]

end Syntax

/-- The kinds of tokens that denote a value. -/
def Kind.denoting : List Kind :=
  [.integer, .float, .string, .keyword .true_, .keyword .false_, .symbol .hash]

namespace Expr

/-- The object of `$name` and `$verb(args)`. -/
def isSystem : Expr → Bool
  | literal (.object id) t => id == 0 && t.kind == .symbol .dollar
  | _ => false

/-- What can be called. -/
def isCallee : Expr → Bool
  | identifier _ _ | grouping _ _ => true
  | _ => false

def tier : Expr → Nat
  | binary op _ _ _ => op.tier
  | property object _ _ => if object.isSystem then 9 else 6
  | unary _ _ _ => 7
  | verbCall object _ _ _ => if object.isSystem then 9 else 8
  | grouping _ _ | literal _ _ | identifier _ _ | list _ _ | range _ _ _ | call _ _ _
  | recover _ _ _ _ => 9

theorem tier_le (e : Expr) : e.tier ≤ 9 := by
  cases e with
  | binary op => exact Nat.le_trans op.tier_le (by decide)
  | unary => exact Nat.le_of_lt_succ (by decide : 7 < 10)
  | property object =>
    rw [tier]
    split <;> decide
  | verbCall object =>
    rw [tier]
    split <;> decide
  | _ => exact Nat.le_refl 9

theorem tier_of_isCallee {e : Expr} (h : e.isCallee = true) : e.tier = 9 := by
  cases e <;> first | rfl | cases h

/-- The token denotes the value; of an object it is the hash before the number. -/
def Denotes (t : Token) (value : Value) : Prop :=
  Syntax.literalValue? t = some value ∨
    (t.kind = .keyword .true_ ∧ value = .boolean true) ∨
    (t.kind = .keyword .false_ ∧ value = .boolean false) ∨
    (t.kind = .symbol .hash ∧ ∃ id, value = .object id)

mutual

/-- Operands bind at least as tightly as their operators ask, assignments and calls have names or
groupings to their left, and literals have tokens that denote them. -/
def Conformant : Expr → Prop
  | binary .assign left right _ =>
    left.name?.isSome = true ∧ left.Conformant ∧ right.Conformant
  | binary op left right _ =>
    op.tier ≤ left.tier ∧ op.tier < right.tier ∧ left.Conformant ∧ right.Conformant
  | unary _ operand _ => 7 ≤ operand.tier ∧ operand.Conformant
  | grouping inner _ => inner.Conformant
  | literal value t => Denotes t value
  | identifier _ _ => True
  | list elements _ => AllConformant elements
  | range first last _ => first.Conformant ∧ last.Conformant
  | property object _ _ => object.isSystem = true ∨ 6 ≤ object.tier ∧ object.Conformant
  | call callee args _ => callee.isCallee = true ∧ callee.Conformant ∧ AllConformant args
  | verbCall object _ args _ =>
    (object.isSystem = true ∨ 8 ≤ object.tier ∧ object.Conformant) ∧ AllConformant args
  | recover body filters alternative _ =>
    body.Conformant ∧ AllConformant filters ∧ alternative.Conformant

def AllConformant : List Expr → Prop
  | [] => True
  | e :: es => e.Conformant ∧ AllConformant es

end

theorem kind_mem_denoting {t : Token} {value : Value} (h : Denotes t value) :
    t.kind ∈ Kind.denoting := by
  rcases h with h | ⟨h, _⟩ | ⟨h, _⟩ | ⟨h, _⟩
  · rcases Syntax.kind_of_literalValue? h with h | h | h <;> rw [h] <;> decide
  all_goals
    rw [h]
    decide

theorem kind_ne_dollar_of_denotes {t : Token} {value : Value} (h : Denotes t value) :
    t.kind ≠ .symbol .dollar := by
  have hall : ∀ k ∈ Kind.denoting, k ≠ .symbol .dollar := by decide
  exact hall t.kind (kind_mem_denoting h)

theorem Conformant.isSystem_eq_false {e : Expr} (h : e.Conformant) : e.isSystem = false := by
  cases e with
  | literal value t =>
    have hkind : (t.kind == .symbol .dollar) = false :=
      beq_eq_false_iff_ne.mpr (kind_ne_dollar_of_denotes h)
    cases value with
    | object id => rw [isSystem, hkind, Bool.and_false]
    | _ => rfl
  | _ => rfl

theorem conformant_binary {op : BinaryOp} {left right : Expr} {t : Token} (hop : 0 < op.tier) :
    (binary op left right t).Conformant ↔
      op.tier ≤ left.tier ∧ op.tier < right.tier ∧ left.Conformant ∧ right.Conformant := by
  cases op with
  | assign => exact absurd hop (Nat.lt_irrefl 0)
  | _ => exact Iff.rfl

/-- The zero that stands for a missing value: no token denotes it. -/
def isAbsent : Expr → Bool
  | literal (.integer n) t => n == 0 && t.kind != .integer
  | _ => false

theorem Conformant.isAbsent_eq_false {e : Expr} (h : e.Conformant) : e.isAbsent = false := by
  cases e with
  | literal value t =>
    cases value with
    | integer n =>
      have hkind : t.kind = .integer := by
        rcases h with h | ⟨_, h⟩ | ⟨_, h⟩ | ⟨_, _, h⟩
        · unfold Syntax.literalValue? at h
          split at h <;> first | assumption | simp at h
        all_goals cases h
      rw [isAbsent, hkind]
      exact Bool.and_false _
    | _ => rfl
  | _ => rfl

end Expr

theorem Grammar.isAbsent_zero {t : Token} (h : t.kind ≠ .integer) : (zero t).isAbsent = true := by
  simpa only [zero, Expr.isAbsent, beq_self_eq_true, Bool.true_and, bne_iff_ne] using h

namespace Stmt

def isBlock : Stmt → Bool
  | block _ => true
  | _ => false

mutual

/-- Blocks hold statements that are no blocks, or else the zero of an empty block; bodies are
blocks; there are conditions and handlers, and as many consequences as conditions; and expressions
are conformant. -/
def Conformant : Stmt → Prop
  | expr e => e.Conformant
  | block body => (∃ e, e.isAbsent = true ∧ body = [expr e]) ∨ body ≠ [] ∧ AllConformant body
  | return_ e _ => e.isAbsent = true ∨ e.Conformant
  | if_ conditions consequences otherwise _ =>
    conditions ≠ [] ∧ conditions.length = consequences.length ∧ Expr.AllConformant conditions ∧
      BodiesConformant consequences ∧ ElseConformant otherwise
  | for_ _ iterable body _ => iterable.Conformant ∧ body.isBlock = true ∧ body.Conformant
  | try_ body arms _ =>
    body.isBlock = true ∧ body.Conformant ∧ arms ≠ [] ∧ ArmsConformant arms

def AllConformant : List Stmt → Prop
  | [] => True
  | s :: ss => s.isBlock = false ∧ s.Conformant ∧ AllConformant ss

def BodiesConformant : List Stmt → Prop
  | [] => True
  | body :: bodies => body.isBlock = true ∧ body.Conformant ∧ BodiesConformant bodies

def ElseConformant : Option Stmt → Prop
  | none => True
  | some body => body.isBlock = true ∧ body.Conformant

def ArmsConformant : List Arm → Prop
  | [] => True
  | .mk _ filters body _ :: arms =>
    Expr.AllConformant filters ∧ body.isBlock = true ∧ body.Conformant ∧ ArmsConformant arms

end

end Stmt
end MooScript
