import Mathlib
import MooScript.Proofs.Evaluation.Invariant
import MooScript.Proofs.Evaluation.Session

/-! What an evaluation does to the open scopes. Only the innermost is ever written, so that a run,
which opens one of its own, leaves the environment as it found it. -/
namespace MooScript

namespace Environment

variable {e e' : Environment}

/-- All scopes from the innermost outward. -/
def scopes (e : Environment) : List Scope := e.inner ++ [e.globals]

theorem depth_eq : e.depth = e.scopes.length := by
  rw [depth, scopes, List.length_append, List.length_singleton]

theorem ext_scopes (h : e.scopes = e'.scopes) : e = e' := by
  obtain ⟨hinner, hglobals⟩ := List.append_inj' h rfl
  cases e
  cases e'
  cases hinner
  cases hglobals
  rfl

theorem tail_scopes_define (name : String) (value : Value) :
    (e.define name value).scopes.tail = e.scopes.tail := by
  obtain ⟨inner, globals⟩ := e
  cases inner <;> rfl

theorem depth_of_tail_scopes (h : e.scopes.tail = e'.scopes.tail) : e.depth = e'.depth := by
  have hlength := congrArg List.length h
  rw [List.length_tail, List.length_tail, ← depth_eq, ← depth_eq] at hlength
  exact Nat.pred_inj (Nat.succ_pos _) (Nat.succ_pos _) hlength

/-- Closing the innermost scope leaves the outer ones, if there are any. -/
theorem pop_eq_of_tail_scopes (h : e.scopes.tail = e'.scopes) : e.pop = e' := by
  obtain ⟨inner, globals⟩ := e
  cases inner with
  | nil => exact absurd h.symm (List.append_ne_nil_of_right_ne_nil _ (List.cons_ne_nil _ _))
  | cons scope outer => exact ext_scopes h

end Environment

/-- The scopes around the innermost one are those of before. -/
def Machine.ScopesAround (outer : List Scope) (m : Machine) : Prop :=
  m.environment.scopes.tail = outer

theorem invariant_scopesAround (host : Host) (outer : List Scope) :
    Invariant host (Machine.ScopesAround outer) (fun _ => True) where
  define name _ h _ := (Environment.tail_scopes_define name _).trans h
  lookup _ _ := trivial
  property _ _ := trivial
  call h _ _ := ⟨h, trivial⟩
  error _ := trivial
  boolean _ := trivial
  zero := trivial
  list := ⟨fun _ _ _ => trivial, fun _ => trivial⟩
  items _ _ _ _ := trivial
  range _ _ _ := trivial
  unary _ _ _ := trivial
  binary _ _ _ _ _ := trivial

theorem Expr.eval_tail_scopes (host : Host) (e : Expr) (m : Machine) :
    ((e.eval host).run m).2.environment.scopes.tail = m.environment.scopes.tail :=
  (e.eval_keeps (invariant_scopesAround host _) (fun _ _ => trivial) m rfl).1

/-- A run closes the scope it opened, and nothing else has changed by then. -/
theorem Stmt.run_environment (host : Host) (s : Stmt) (m : Machine) :
    (s.run host m).2.environment = m.environment := by
  let start : Machine := { m with environment := m.environment.push }
  -- The scopes around the one that is opened are all there were.
  have hstart : start.ScopesAround m.environment.scopes := rfl
  have hexec := (s.exec_keeps (invariant_scopesAround host _) (fun _ _ => trivial) start hstart).1
  exact Environment.pop_eq_of_tail_scopes hexec

namespace Interpreter

/-- The interpreter with another store and other functions. -/
def supplied (i : Interpreter) (store : Store) (builtins : Builtins) : Interpreter :=
  ⟨{ i.host with builtins }, { i.machine with store }⟩

theorem respond_eq (i : Interpreter) {request : Request} (h : ∀ e, request ≠ .eval e) :
    ∃ store builtins, (i.respond request).2 = i.supplied store builtins := by
  cases request with
  | run body =>
    have henvironment := body.run_environment i.host i.machine
    refine ⟨(body.run i.host i.machine).2.store, i.host.builtins, ?_⟩
    change _ = Interpreter.mk i.host ⟨i.machine.environment, _⟩
    rw [← henvironment]
    rfl
  | eval e => exact absurd rfl (h e)
  | call name args =>
    have hcall : (i.respond (.call name args)).2 = (i.call name args).2 := rfl
    rw [hcall, call]
    cases i.host.builtins.find? name with
    | none => exact ⟨i.machine.store, i.host.builtins, rfl⟩
    | some f => exact ⟨(f args i.machine.store).2, i.host.builtins, rfl⟩
  | register name f => exact ⟨i.machine.store, i.host.builtins.register name f, rfl⟩

/-- Without evaluations between them, requests have only the store and the functions to pass on. -/
theorem after_eq (i : Interpreter) {requests : List Request} (h : ∀ e, .eval e ∉ requests) :
    i.after requests =
      i.supplied (i.after requests).machine.store (i.after requests).host.builtins := by
  suffices hsupplied : ∃ store builtins, i.after requests = i.supplied store builtins by
    obtain ⟨store, builtins, heq⟩ := hsupplied
    rw [heq]
    rfl
  induction requests generalizing i with
  | nil => exact ⟨i.machine.store, i.host.builtins, rfl⟩
  | cons request requests ih =>
    have hhead : ∀ e, request ≠ .eval e := fun e he => h e (he ▸ List.mem_cons_self)
    have htail : ∀ e, .eval e ∉ requests := fun e he => h e (List.mem_cons_of_mem request he)
    obtain ⟨store, builtins, heq⟩ := i.respond_eq hhead
    obtain ⟨store', builtins', heq'⟩ := ih (i.respond request).2 htail
    refine ⟨store', builtins', ?_⟩
    rw [after, heq', heq]
    rfl

/-- A run leaves the environment as it was; an evaluation changes at most the innermost scope. So
a run knows of earlier ones only through the store and the functions. -/
theorem run_restores_environment (i : Interpreter) :
    (∀ body, (i.run body).2.machine.environment = i.machine.environment) ∧
    (∀ e, (i.eval e).2.machine.environment.depth = i.machine.environment.depth ∧
      (i.eval e).2.machine.environment.scopes.tail = i.machine.environment.scopes.tail) ∧
    ∀ earlier : List Request, (∀ e, .eval e ∉ earlier) → ∀ body,
      let j := i.after earlier
      (j.run body).1 = ((i.supplied j.machine.store j.host.builtins).run body).1 := by
  refine ⟨fun body => body.run_environment i.host i.machine, fun e => ?_, fun earlier h body => ?_⟩
  · have htail := e.eval_tail_scopes i.host i.machine
    exact ⟨Environment.depth_of_tail_scopes htail, htail⟩
  · intro j
    rw [← i.after_eq h]

/-- A variable of one run is unknown to the next, whatever else was asked in between. One of the
runs has a condition without a consequence. -/
theorem run_restores_environment_unbound :
    let i := Interpreter.fresh 10
    let t : Token := .endOfInput none
    let x : Expr := .identifier "x" t
    let assign : Stmt := .expr (.binary .assign x (.literal (.integer 1) t) t)
    let earlier : List Request := [.run assign,
      .run (.if_ [.literal (.boolean true) t] [] (some assign) t),
      .call "create" [], .run (.expr x), .register "x" (Builtin.pure .list)]
    ((i.after earlier).run (.return_ x t)).1 = .ok (.error .varNotFound) := by
  intro i t x assign earlier
  have hevals : ∀ e, .eval e ∉ earlier := by simp [earlier]
  rw [(run_restores_environment i).2.2 earlier hevals]
  cbv

end Interpreter
end MooScript
