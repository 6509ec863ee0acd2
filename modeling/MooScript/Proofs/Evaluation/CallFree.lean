import Mathlib
import MooScript.Proofs.Evaluation.Invariant

/-! Trees without calls of functions. They evaluate as they would where there are no functions, so
that nothing in them reaches the store. -/
namespace MooScript

mutual

/-- No function is called in an expression, at any depth. -/
def Expr.CallFree : Expr → Prop
  | .binary _ left right _ => left.CallFree ∧ right.CallFree
  | .unary _ operand _ => operand.CallFree
  | .grouping inner _ => inner.CallFree
  | .literal _ _ | .identifier _ _ => True
  | .list elements _ => Expr.CallFreeAll elements
  | .range first last _ => first.CallFree ∧ last.CallFree
  | .property object _ _ => object.CallFree
  | .call _ _ _ => False
  | .verbCall object _ args _ => object.CallFree ∧ Expr.CallFreeAll args
  | .recover body filters alternative _ =>
    body.CallFree ∧ Expr.CallFreeAll filters ∧ alternative.CallFree

def Expr.CallFreeAll : List Expr → Prop
  | [] => True
  | e :: es => e.CallFree ∧ Expr.CallFreeAll es

end

mutual

/-- No function is called in a statement, at any depth. -/
def Stmt.CallFree : Stmt → Prop
  | .expr e => e.CallFree
  | .block body => Stmt.CallFreeAll body
  | .return_ e _ => e.CallFree
  | .if_ conditions consequences otherwise _ =>
    Expr.CallFreeAll conditions ∧ Stmt.CallFreeAll consequences ∧ Stmt.CallFreeElse otherwise
  | .for_ _ iterable body _ => iterable.CallFree ∧ body.CallFree
  | .try_ body arms _ => body.CallFree ∧ Arm.CallFreeAll arms

def Stmt.CallFreeAll : List Stmt → Prop
  | [] => True
  | s :: ss => s.CallFree ∧ Stmt.CallFreeAll ss

def Stmt.CallFreeElse : Option Stmt → Prop
  | none => True
  | some s => s.CallFree

def Arm.CallFreeAll : List Arm → Prop
  | [] => True
  | .mk _ filters body _ :: arms =>
    Expr.CallFreeAll filters ∧ body.CallFree ∧ Arm.CallFreeAll arms

end

/-- The host with no function to call. -/
def Host.unaided (host : Host) : Host := { host with builtins := ⟨.empty⟩ }

variable (host : Host)

mutual

theorem Expr.eval_unaided (e : Expr) (h : e.CallFree) : e.eval host = e.eval host.unaided := by
  cases e with
  | literal | identifier => rfl
  | grouping inner t => exact inner.eval_unaided h
  | list elements t => rw [eval, eval, Expr.evalAll_unaided elements h]
  | range first last t =>
    obtain ⟨hfirst, hlast⟩ := h
    rw [eval, eval, first.eval_unaided hfirst, last.eval_unaided hlast]
    rfl
  | unary op operand t =>
    cases op with
    | not | neg => rw [eval, eval, operand.eval_unaided h]
  | binary op left right t =>
    obtain ⟨hleft, hright⟩ := h
    have hl := left.eval_unaided hleft
    have hr := right.eval_unaided hright
    cases op with
    | assign => rw [eval, eval, hr]
    | and | or | xor | eq | ne => rw [eval, eval, hl, hr]
    | lt | le | gt | ge | add | sub | mul | div | rem => simp only [eval, hl, hr]
  | property object name t => rw [eval, eval, object.eval_unaided h]
  | call => exact h.elim
  | verbCall object verb args t =>
    obtain ⟨hobject, hargs⟩ := h
    rw [eval, eval, object.eval_unaided hobject, Expr.evalAll_unaided args hargs]
  | recover body filters alternative t =>
    obtain ⟨hbody, hfilters, halternative⟩ := h
    have hmatches code := Expr.matchesAny_unaided code filters hfilters
    simp only [eval, body.eval_unaided hbody, hmatches,
      alternative.eval_unaided halternative]

theorem Expr.evalAll_unaided (es : List Expr) (h : Expr.CallFreeAll es) :
    Expr.evalAll host es = Expr.evalAll host.unaided es := by
  cases es with
  | nil => rfl
  | cons e es =>
    obtain ⟨he, hes⟩ := h
    rw [evalAll, evalAll, e.eval_unaided he, Expr.evalAll_unaided es hes]

theorem Expr.matchesAny_unaided (code : ErrorCode) (es : List Expr) (h : Expr.CallFreeAll es) :
    Expr.matchesAny host code es = Expr.matchesAny host.unaided code es := by
  cases es with
  | nil => rfl
  | cons e es =>
    obtain ⟨he, hes⟩ := h
    rw [matchesAny, matchesAny, e.eval_unaided he, Expr.matchesAny_unaided code es hes]

end

mutual

theorem Stmt.exec_unaided (s : Stmt) (h : s.CallFree) : s.exec host = s.exec host.unaided := by
  cases s with
  | expr e => rw [Stmt.exec, Stmt.exec, e.eval_unaided host h]
  | block body => exact Stmt.execAll_unaided (.integer 0) body h
  | return_ e t => rw [Stmt.exec, Stmt.exec, e.eval_unaided host h]
  | if_ conditions consequences otherwise t =>
    obtain ⟨hconditions, hconsequences, hotherwise⟩ := h
    rw [Stmt.exec, Stmt.exec, Stmt.execElse_unaided otherwise hotherwise,
      Stmt.execBranches_unaided _ conditions consequences hconditions hconsequences]
  | for_ var iterable body t =>
    obtain ⟨hiterable, hbody⟩ := h
    rw [Stmt.exec, Stmt.exec, iterable.eval_unaided host hiterable, body.exec_unaided hbody]
  | try_ body arms t =>
    obtain ⟨hbody, harms⟩ := h
    have hhandle code unhandled := Arm.handle_unaided code unhandled arms harms
    simp only [Stmt.exec, body.exec_unaided hbody, hhandle]

theorem Stmt.execAll_unaided (last : Value) (ss : List Stmt) (h : Stmt.CallFreeAll ss) :
    Stmt.execAll host last ss = Stmt.execAll host.unaided last ss := by
  cases ss with
  | nil => rfl
  | cons s ss =>
    obtain ⟨hs, hss⟩ := h
    have htail last := Stmt.execAll_unaided last ss hss
    simp only [Stmt.execAll, s.exec_unaided hs, htail]

theorem Stmt.execElse_unaided (otherwise : Option Stmt) (h : Stmt.CallFreeElse otherwise) :
    Stmt.execElse host otherwise = Stmt.execElse host.unaided otherwise := by
  cases otherwise with
  | none => rfl
  | some s => exact s.exec_unaided h

theorem Stmt.execBranches_unaided (otherwise : Action Flow) (conditions : List Expr)
    (bodies : List Stmt) (hconditions : Expr.CallFreeAll conditions)
    (hbodies : Stmt.CallFreeAll bodies) : Stmt.execBranches host otherwise conditions bodies =
      Stmt.execBranches host.unaided otherwise conditions bodies := by
  cases conditions with
  | nil => cases bodies <;> rfl
  | cons condition conditions =>
    cases bodies with
    | nil => rfl
    | cons body bodies =>
      obtain ⟨hcondition, hconditions⟩ := hconditions
      obtain ⟨hbody, hbodies⟩ := hbodies
      have hrest := Stmt.execBranches_unaided otherwise conditions bodies hconditions hbodies
      rw [Stmt.execBranches, Stmt.execBranches, condition.eval_unaided host hcondition,
        body.exec_unaided hbody, hrest]

theorem Arm.handle_unaided (code : ErrorCode) (unhandled : Action Flow) (arms : List Arm)
    (h : Arm.CallFreeAll arms) :
    Arm.handle host code unhandled arms = Arm.handle host.unaided code unhandled arms := by
  cases arms with
  | nil => rfl
  | cons arm arms =>
    obtain ⟨binding, filters, body, t⟩ := arm
    obtain ⟨hfilters, hbody, harms⟩ := h
    rw [Arm.handle, Arm.handle, Expr.matchesAny_unaided host code filters hfilters,
      body.exec_unaided hbody, Arm.handle_unaided code unhandled arms harms]

end

/-- Where there are no functions, no evaluation reaches the store. -/
theorem invariant_store_unaided (s : Store) :
    Invariant host.unaided (fun m => m.store = s) (fun _ => True) where
  define _ _ h _ := h
  lookup _ _ := trivial
  property _ _ := trivial
  call _ found _ := absurd found.symm (Option.some_ne_none _)
  error _ := trivial
  boolean _ := trivial
  zero := trivial
  list := ⟨fun _ _ _ => trivial, fun _ => trivial⟩
  items _ _ _ _ := trivial
  range _ _ _ := trivial
  unary _ _ _ := trivial
  binary _ _ _ _ _ := trivial

theorem Expr.store_eval_of_callFree (e : Expr) (h : e.CallFree) (m : Machine) :
    ((e.eval host).run m).2.store = m.store := by
  rw [e.eval_unaided host h]
  exact (e.eval_keeps (invariant_store_unaided host m.store) (fun _ _ => trivial) m rfl).1

theorem Stmt.store_exec_of_callFree (s : Stmt) (h : s.CallFree) (m : Machine) :
    ((s.exec host).run m).2.store = m.store := by
  rw [s.exec_unaided host h]
  exact (s.exec_keeps (invariant_store_unaided host m.store) (fun _ _ => trivial) m rfl).1

theorem Stmt.store_run_of_callFree (s : Stmt) (h : s.CallFree) (m : Machine) :
    (s.run host m).2.store = m.store :=
  s.store_exec_of_callFree host h { m with environment := m.environment.push }

end MooScript
