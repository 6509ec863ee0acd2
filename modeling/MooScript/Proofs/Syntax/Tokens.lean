import MooScript.Syntax

/-! The tokens that a tree keeps in its nodes, and trees without them. -/
namespace MooScript

mutual

def Expr.tokens : Expr → List Token
  | .binary _ left right t => t :: (left.tokens ++ right.tokens)
  | .unary _ operand t => t :: operand.tokens
  | .grouping inner t => t :: inner.tokens
  | .literal _ t | .identifier _ t => [t]
  | .list elements t => t :: Expr.tokensAll elements
  | .range first last t => t :: (first.tokens ++ last.tokens)
  | .property object _ t => t :: object.tokens
  | .call callee args t => t :: (callee.tokens ++ Expr.tokensAll args)
  | .verbCall object _ args t => t :: (object.tokens ++ Expr.tokensAll args)
  | .recover body filters alternative t =>
    t :: (body.tokens ++ (Expr.tokensAll filters ++ alternative.tokens))

def Expr.tokensAll : List Expr → List Token
  | [] => []
  | e :: es => e.tokens ++ Expr.tokensAll es

end

mutual

def Stmt.tokens : Stmt → List Token
  | .expr e => e.tokens
  | .block body => Stmt.tokensAll body
  | .return_ e t => t :: e.tokens
  | .if_ conditions consequences otherwise t =>
    t :: ((Expr.tokensAll conditions ++ Stmt.tokensAll consequences) ++
      Stmt.tokensOfElse otherwise)
  | .for_ _ iterable body t => t :: (iterable.tokens ++ body.tokens)
  | .try_ body arms t => t :: (body.tokens ++ Arm.tokensAll arms)

def Stmt.tokensAll : List Stmt → List Token
  | [] => []
  | s :: ss => s.tokens ++ Stmt.tokensAll ss

def Stmt.tokensOfElse : Option Stmt → List Token
  | none => []
  | some s => s.tokens

def Arm.tokensAll : List Arm → List Token
  | [] => []
  | .mk _ filters body t :: arms =>
    t :: (Expr.tokensAll filters ++ (body.tokens ++ Arm.tokensAll arms))

end

/-- What holds of a node's own token and of those of its two parts holds of all its tokens. -/
theorem Token.forall_mem_node {P : Token → Prop} {t : Token} {ts ts' : List Token} (ht : P t)
    (h : ∀ t' ∈ ts, P t') (h' : ∀ t' ∈ ts', P t') : ∀ t' ∈ t :: (ts ++ ts'), P t' :=
  List.forall_mem_cons.mpr ⟨ht, List.forall_mem_append.mpr ⟨h, h'⟩⟩

theorem Expr.token_mem_tokens (e : Expr) : e.token ∈ e.tokens := by
  cases e <;> exact List.mem_cons_self

/-- A token in place of all others. -/
def Token.erased : Token := endOfInput none

mutual

/-- The expression apart from the tokens in its nodes. -/
@[simp] def Expr.bare : Expr → Expr
  | .binary op left right _ => .binary op left.bare right.bare .erased
  | .unary op operand _ => .unary op operand.bare .erased
  | .grouping inner _ => .grouping inner.bare .erased
  | .literal value _ => .literal value .erased
  | .identifier name _ => .identifier name .erased
  | .list elements _ => .list (Expr.bareAll elements) .erased
  | .range first last _ => .range first.bare last.bare .erased
  | .property object name _ => .property object.bare name .erased
  | .call callee args _ => .call callee.bare (Expr.bareAll args) .erased
  | .verbCall object verb args _ => .verbCall object.bare verb (Expr.bareAll args) .erased
  | .recover body filters alternative _ =>
    .recover body.bare (Expr.bareAll filters) alternative.bare .erased

@[simp] def Expr.bareAll : List Expr → List Expr
  | [] => []
  | e :: es => e.bare :: Expr.bareAll es

end

mutual

/-- The statement apart from the tokens in its nodes. -/
@[simp] def Stmt.bare : Stmt → Stmt
  | .expr e => .expr e.bare
  | .block body => .block (Stmt.bareAll body)
  | .return_ e _ => .return_ e.bare .erased
  | .if_ conditions consequences otherwise _ =>
    .if_ (Expr.bareAll conditions) (Stmt.bareAll consequences) (Stmt.bareElse otherwise) .erased
  | .for_ var iterable body _ => .for_ var iterable.bare body.bare .erased
  | .try_ body arms _ => .try_ body.bare (Arm.bareAll arms) .erased

@[simp] def Stmt.bareAll : List Stmt → List Stmt
  | [] => []
  | s :: ss => s.bare :: Stmt.bareAll ss

@[simp] def Stmt.bareElse : Option Stmt → Option Stmt
  | none => none
  | some s => some s.bare

@[simp] def Arm.bareAll : List Arm → List Arm
  | [] => []
  | .mk binding filters body _ :: arms =>
    .mk binding (Expr.bareAll filters) body.bare .erased :: Arm.bareAll arms

end

theorem Expr.name?_bare (e : Expr) : e.bare.name? = e.name? := by
  cases e <;> rfl

end MooScript
