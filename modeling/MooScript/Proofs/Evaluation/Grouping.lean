import MooScript.Proofs.Evaluation.Alike

/-! Parentheses only group. A tree does the same without them, but for those around what is called
or assigned to, which tell a name from an expression that comes to one. -/
namespace MooScript

/-- The expression in the parentheses of the other, if that has any. -/
def Expr.groupedAs (inner : Expr) : Expr → Expr
  | .grouping _ t => .grouping inner t
  | _ => inner

mutual

/-- The expression without its parentheses, but for those directly around what is called or assigned
to. -/
def Expr.ungrouped : Expr → Expr
  | .binary op left right t =>
    .binary op (if op = .assign then left.ungrouped.groupedAs left else left.ungrouped)
      right.ungrouped t
  | .unary op operand t => .unary op operand.ungrouped t
  | .grouping inner _ => inner.ungrouped
  | .literal value t => .literal value t
  | .identifier name t => .identifier name t
  | .list elements t => .list (Expr.ungroupedAll elements) t
  | .range first last t => .range first.ungrouped last.ungrouped t
  | .property object name t => .property object.ungrouped name t
  | .call callee args t =>
    .call (callee.ungrouped.groupedAs callee) (Expr.ungroupedAll args) t
  | .verbCall object verb args t => .verbCall object.ungrouped verb (Expr.ungroupedAll args) t
  | .recover body filters alternative t =>
    .recover body.ungrouped (Expr.ungroupedAll filters) alternative.ungrouped t

def Expr.ungroupedAll : List Expr → List Expr
  | [] => []
  | e :: es => e.ungrouped :: Expr.ungroupedAll es

end

mutual

/-- The statement with its expressions ungrouped. -/
def Stmt.ungrouped : Stmt → Stmt
  | .expr e => .expr e.ungrouped
  | .block body => .block (Stmt.ungroupedAll body)
  | .return_ e t => .return_ e.ungrouped t
  | .if_ conditions consequences otherwise t =>
    .if_ (Expr.ungroupedAll conditions) (Stmt.ungroupedAll consequences)
      (Stmt.ungroupedElse otherwise) t
  | .for_ var iterable body t => .for_ var iterable.ungrouped body.ungrouped t
  | .try_ body arms t => .try_ body.ungrouped (Arm.ungroupedAll arms) t

def Stmt.ungroupedAll : List Stmt → List Stmt
  | [] => []
  | s :: ss => s.ungrouped :: Stmt.ungroupedAll ss

def Stmt.ungroupedElse : Option Stmt → Option Stmt
  | none => none
  | some s => some s.ungrouped

def Arm.ungroupedAll : List Arm → List Arm
  | [] => []
  | .mk binding filters body t :: arms =>
    .mk binding (Expr.ungroupedAll filters) body.ungrouped t :: Arm.ungroupedAll arms

end

namespace Expr

variable {host : Host} {e e' : Expr}

/-- No parentheses are left around an expression itself. -/
theorem ungrouped_ne_grouping (e : Expr) {inner : Expr} {t : Token} :
    e.ungrouped ≠ .grouping inner t := by
  cases e with
  | grouping e _ => exact e.ungrouped_ne_grouping
  | _ => exact Expr.noConfusion

/-- With its parentheses kept, an expression is a name if it was one. -/
theorem name?_groupedAs_ungrouped (e : Expr) : (e.ungrouped.groupedAs e).name? = e.name? := by
  cases e <;> rfl

theorem EvalAlike.groupedAs (h : EvalAlike host e e') (outer : Expr) :
    EvalAlike host e (e'.groupedAs outer) := by
  cases outer <;> exact h

end Expr

mutual

theorem Expr.eval_ungrouped (host : Host) (e : Expr) : Expr.EvalAlike host e e.ungrouped := by
  cases e with
  | literal value t => exact .refl _
  | identifier name t => exact .refl _
  | grouping inner t => exact inner.eval_ungrouped host
  | list elements t => exact .list (Expr.forall₂_ungroupedAll host elements)
  | range first last t => exact .range (first.eval_ungrouped host) (last.eval_ungrouped host)
  | unary op operand t => exact .unary op (operand.eval_ungrouped host)
  | binary op left right t =>
    have hleft := left.eval_ungrouped host
    rw [Expr.ungrouped]
    split
    · exact .binary op (fun _ => left.name?_groupedAs_ungrouped.symm) (hleft.groupedAs left)
        (right.eval_ungrouped host)
    · exact .binary op (fun h => absurd h ‹_›) hleft (right.eval_ungrouped host)
  | property object name t => exact .property name (object.eval_ungrouped host)
  | call callee args t =>
    exact .call callee.name?_groupedAs_ungrouped.symm
      ((callee.eval_ungrouped host).groupedAs callee) (Expr.forall₂_ungroupedAll host args)
  | verbCall object verb args t =>
    exact .verbCall verb (object.eval_ungrouped host) (Expr.forall₂_ungroupedAll host args)
  | recover body filters alternative t =>
    exact .recover (body.eval_ungrouped host) (Expr.forall₂_ungroupedAll host filters)
      (alternative.eval_ungrouped host)

theorem Expr.forall₂_ungroupedAll (host : Host) (es : List Expr) :
    List.Forall₂ (Expr.EvalAlike host) es (Expr.ungroupedAll es) := by
  cases es with
  | nil => exact .nil
  | cons e es => exact .cons (e.eval_ungrouped host) (Expr.forall₂_ungroupedAll host es)

end

mutual

theorem Stmt.exec_ungrouped (host : Host) (s : Stmt) : Stmt.ExecAlike host s s.ungrouped := by
  cases s with
  | expr e => exact .expr (e.eval_ungrouped host)
  | block body => exact .block (Stmt.forall₂_ungroupedAll host body)
  | return_ e t => exact .return_ (e.eval_ungrouped host)
  | if_ conditions consequences otherwise t =>
    exact .if_ (Expr.forall₂_ungroupedAll host conditions)
      (Stmt.forall₂_ungroupedAll host consequences) (Stmt.rel_ungroupedElse host otherwise)
  | for_ var iterable body t =>
    exact .for_ var (iterable.eval_ungrouped host) (body.exec_ungrouped host)
  | try_ body arms t => exact .try_ (body.exec_ungrouped host) (Arm.forall₂_ungroupedAll host arms)

theorem Stmt.forall₂_ungroupedAll (host : Host) (ss : List Stmt) :
    List.Forall₂ (Stmt.ExecAlike host) ss (Stmt.ungroupedAll ss) := by
  cases ss with
  | nil => exact .nil
  | cons s ss => exact .cons (s.exec_ungrouped host) (Stmt.forall₂_ungroupedAll host ss)

theorem Stmt.rel_ungroupedElse (host : Host) (otherwise : Option Stmt) :
    Option.Rel (Stmt.ExecAlike host) otherwise (Stmt.ungroupedElse otherwise) := by
  cases otherwise with
  | none => exact .none
  | some s => exact .some (s.exec_ungrouped host)

theorem Arm.forall₂_ungroupedAll (host : Host) (arms : List Arm) :
    List.Forall₂ (Stmt.HandlerAlike host) arms (Arm.ungroupedAll arms) := by
  cases arms with
  | nil => exact .nil
  | cons arm arms =>
    obtain ⟨binding, filters, body, t⟩ := arm
    exact .cons (.mk (Expr.forall₂_ungroupedAll host filters) (body.exec_ungrouped host))
      (Arm.forall₂_ungroupedAll host arms)

end

open MooScript.Action

/-- Parentheses that only group do not change what a tree does: from every machine, an expression
evaluates and a statement executes as it does without them, to the same value or flow or to faults
that differ in their places at most, and they leave the same environment and store; and so a
statement does in a scope of its own. An expression without them is in no parentheses itself. -/
theorem Stmt.alike_ungrouped (host : Host) (m : Machine) :
    (∀ e : Expr, (∀ (inner : Expr) (t : Token), e.ungrouped ≠ .grouping inner t) ∧
      unplaced ((e.eval host).run m).1 = unplaced ((e.ungrouped.eval host).run m).1 ∧
      ((e.eval host).run m).2.environment = ((e.ungrouped.eval host).run m).2.environment ∧
      ((e.eval host).run m).2.store = ((e.ungrouped.eval host).run m).2.store) ∧
    ∀ s : Stmt,
      unplaced ((s.exec host).run m).1 = unplaced ((s.ungrouped.exec host).run m).1 ∧
      ((s.exec host).run m).2.environment = ((s.ungrouped.exec host).run m).2.environment ∧
      ((s.exec host).run m).2.store = ((s.ungrouped.exec host).run m).2.store ∧
      unplaced (s.run host m).1 = unplaced (s.ungrouped.run host m).1 ∧
      (s.run host m).2 = (s.ungrouped.run host m).2 := by
  constructor
  · intro e
    obtain ⟨houtcome, hmachine⟩ := e.eval_ungrouped host m
    exact ⟨fun _ _ => e.ungrouped_ne_grouping, houtcome, congrArg Machine.environment hmachine,
      congrArg Machine.store hmachine⟩
  · intro s
    obtain ⟨houtcome, hmachine⟩ := s.exec_ungrouped host m
    exact ⟨houtcome, congrArg Machine.environment hmachine, congrArg Machine.store hmachine,
      (s.exec_ungrouped host).run m⟩

/-- One pair stays around what is called: without it the name would be called, not what the variable
of that name holds. -/
example (t : Token) (args : List Expr) :
    Expr.ungrouped (.call (.grouping (.grouping (.identifier "f" t) t) t) args t) =
      .call (.grouping (.identifier "f" t) t) (Expr.ungroupedAll args) t := rfl

end MooScript
