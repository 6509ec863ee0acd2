import Mathlib
import MooScript.Proofs.Clean.Builtin
import MooScript.Proofs.Evaluation.Scopes

/-! Sessions with the standard functions, on clean values from the start: whatever a host runs,
evaluates and calls, all results, variables and properties are clean, also after faults. -/
namespace MooScript

open Value

namespace Environment

/-- All values of all variables are clean. -/
def Clean (e : Environment) : Prop := ∀ scope ∈ e.scopes, scope.Clean

variable {e : Environment} {name : String} {value : Value}

theorem Clean.define (h : e.Clean) (name : String) (hvalue : value.Clean) :
    (e.define name value).Clean := by
  obtain ⟨inner, globals⟩ := e
  cases inner with
  | nil =>
    obtain ⟨hglobals, hnil⟩ := List.forall_mem_cons.mp h
    exact List.forall_mem_cons.mpr ⟨hglobals.insert name hvalue, hnil⟩
  | cons scope outer =>
    obtain ⟨hscope, houter⟩ := List.forall_mem_cons.mp h
    exact List.forall_mem_cons.mpr ⟨hscope.insert name hvalue, houter⟩

theorem Clean.get? (h : e.Clean) (hname : e.get? name = some value) : value.Clean := by
  obtain ⟨scope, hscope, hvalue⟩ := List.exists_of_findSome?_eq_some hname
  exact (h scope hscope).get? hvalue

theorem Clean.push (h : e.Clean) : e.push.Clean :=
  List.forall_mem_cons.mpr ⟨Table.clean_empty, h⟩

theorem Clean.pop (h : e.Clean) : e.pop.Clean := by
  obtain ⟨inner, globals⟩ := e
  cases inner with
  | nil => exact h
  | cons scope outer => exact (List.forall_mem_cons.mp h).2

theorem clean_constants : ∀ entry ∈ constants, entry.2.Clean := by
  intro entry hentry
  rcases List.mem_append.mp hentry with hkind | hcode
  · obtain ⟨kind, _, hconstant⟩ := List.mem_filterMap.mp hkind
    obtain ⟨name, _, rfl⟩ := Option.map_eq_some_iff.mp hconstant
    exact clean_integer _
  · obtain ⟨code, _, rfl⟩ := List.mem_map.mp hcode
    exact clean_error code

theorem clean_of_globals {globals : Scope} (h : globals.Clean) : Clean ⟨[], globals⟩ :=
  List.forall_mem_singleton.mpr h

theorem clean_initial : initial.Clean := clean_of_globals (Table.clean_ofList clean_constants)

end Environment

structure Machine.Clean (m : Machine) : Prop where
  environment : m.environment.Clean
  store : m.store.Clean

theorem invariant_clean {host : Host} (h : host.builtins = .standard) :
    Invariant host Machine.Clean Value.Clean where
  define name _ hm hvalue := ⟨hm.environment.define name hvalue, hm.store⟩
  lookup hm := hm.environment.get?
  property hm := hm.store.property
  call hm hname hargs := by
    rw [h] at hname
    obtain ⟨hvalue, hstore⟩ := Builtins.keepsClean_standard hname _ _ hargs hm.store
    exact ⟨⟨hm.environment, hstore⟩, hvalue⟩
  error := clean_error
  boolean := clean_boolean
  zero := clean_integer 0
  list := clean_list
  items := Aggregate.clean_items
  range := Ordinal.clean_range
  unary op _ := clean_applyUnary op
  binary op _ _ := clean_applyBinary op

namespace Interpreter

/-- What is asked holds clean values only, and brings no function of its own. -/
def Request.Clean : Request → Prop
  | .run body => ∀ value ∈ body.literals, value.Clean
  | .eval e => ∀ value ∈ e.literals, value.Clean
  | .call _ args => ∀ arg ∈ args, arg.Clean
  | .register _ _ => False

/-- An interpreter with the standard functions that holds clean values. -/
structure Clean (i : Interpreter) : Prop where
  standard : i.host.builtins = .standard
  machine : i.machine.Clean

theorem clean_fresh (maxRangeLength : Nat) : (fresh maxRangeLength).Clean :=
  ⟨rfl, ⟨Environment.clean_initial, Store.clean_initial⟩⟩

variable {i : Interpreter} {request : Request}

theorem ok_of_mapError {ε ε' α : Type} {r : Except ε α} {f : ε → ε'} {a : α}
    (h : r.mapError f = .ok a) : r = .ok a := by
  cases r with
  | error e => cases h
  | ok a' =>
    cases h
    rfl

theorem clean_run (hi : i.Clean) {body : Stmt} (h : ∀ value ∈ body.literals, value.Clean) :
    (i.run body).2.Clean ∧ ∀ value, (i.run body).1 = .ok value → value.Clean := by
  let start : Machine := { i.machine with environment := i.machine.environment.push }
  have hstart : start.Clean := ⟨hi.machine.environment.push, hi.machine.store⟩
  obtain ⟨hend, hflow⟩ := body.exec_keeps (invariant_clean hi.standard) h start hstart
  -- Also after a fault: the scope is closed on the machine that the body left.
  refine ⟨⟨hi.standard, ⟨hend.environment.pop, hend.store⟩⟩, fun value hvalue => ?_⟩
  have hmap : ((body.exec i.host).run start).1.map Flow.value = .ok value :=
    ok_of_mapError hvalue
  cases hexec : ((body.exec i.host).run start).1 with
  | error fault =>
    rw [hexec] at hmap
    cases hmap
  | ok flow =>
    rw [hexec] at hmap
    cases hmap
    exact hflow flow hexec

theorem clean_eval (hi : i.Clean) {e : Expr} (h : ∀ value ∈ e.literals, value.Clean) :
    (i.eval e).2.Clean ∧ ∀ value, (i.eval e).1 = .ok value → value.Clean := by
  obtain ⟨hend, hresult⟩ := e.eval_keeps (invariant_clean hi.standard) h i.machine hi.machine
  exact ⟨⟨hi.standard, hend⟩, fun value hvalue => hresult value (ok_of_mapError hvalue)⟩

theorem clean_call (hi : i.Clean) (name : String) {args : List Value}
    (h : ∀ arg ∈ args, arg.Clean) :
    (i.call name args).2.Clean ∧ ∀ value, (i.call name args).1 = some value → value.Clean := by
  unfold call
  cases hname : i.host.builtins.find? name with
  | none =>
    refine ⟨hi, fun value hvalue => ?_⟩
    cases hvalue
  | some f =>
    obtain ⟨hmachine, hresult⟩ := (invariant_clean hi.standard).call hi.machine hname h
    refine ⟨⟨hi.standard, hmachine⟩, fun value hvalue => ?_⟩
    cases hvalue
    exact hresult

theorem clean_respond (hi : i.Clean) (h : request.Clean) : (i.respond request).2.Clean ∧
    ∀ value, (i.respond request).1 = some (.ok value) → value.Clean := by
  cases request with
  | run body =>
    obtain ⟨hi', hresult⟩ := clean_run hi h
    exact ⟨hi', fun value hvalue => hresult value (Option.some.inj hvalue)⟩
  | eval e =>
    obtain ⟨hi', hresult⟩ := clean_eval hi h
    exact ⟨hi', fun value hvalue => hresult value (Option.some.inj hvalue)⟩
  | call name args =>
    obtain ⟨hi', hresult⟩ := clean_call hi name h
    refine ⟨hi', fun value hvalue => ?_⟩
    obtain ⟨result, hcall, heq⟩ := Option.map_eq_some_iff.mp hvalue
    cases heq
    exact hresult value hcall
  | register name f => exact h.elim

theorem clean_after (hi : i.Clean) {requests : List Request} (h : ∀ r ∈ requests, r.Clean) :
    (i.after requests).Clean := by
  induction requests generalizing i with
  | nil => exact hi
  | cons request requests ih =>
    obtain ⟨hrequest, hrequests⟩ := List.forall_mem_cons.mp h
    exact ih (clean_respond hi hrequest).1 hrequests

/-- Whatever clean requests came before, the next one yields a clean value, if it yields one, and
leaves clean variables and properties, also if it fails. -/
theorem session_clean (i : Interpreter) (hstandard : i.host.builtins = .standard)
    (hmachine : i.machine.Clean) (earlier : List Request) (hearlier : ∀ r ∈ earlier, r.Clean)
    (request : Request) (hrequest : request.Clean) :
    let answered := (i.after earlier).respond request
    answered.2.machine.Clean ∧ ∀ value, answered.1 = some (.ok value) → value.Clean := by
  intro answered
  have hi : (i.after earlier).Clean := clean_after ⟨hstandard, hmachine⟩ hearlier
  obtain ⟨hi', hresult⟩ := clean_respond hi hrequest
  exact ⟨hi'.machine, hresult⟩

/-- A float that is stored in a property is read after a run that faults. -/
theorem session_clean_property :
    let t : Token := .endOfInput none
    let zero : Value := .float (Float.ofBits 0)
    let earlier : List Request := [.call "create" [],
      .call "add_property" [.object 0, .string "x", zero],
      .run (.expr (.binary .div (.literal (.integer 1) t) (.literal zero t) t))]
    let reading : Request := .eval (.list [.property (.literal (.object 0) t) "x" t] t)
    let answered := ((fresh 10).after earlier).respond reading
    answered.1 = some (.ok (.list [zero])) ∧
      answered.2.machine.Clean ∧ (Value.list [zero]).Clean := by
  intro t zero earlier reading
  have hfresh := clean_fresh 10
  have hzero : zero.Clean := by cbv
  have hearlier : ∀ r ∈ earlier, r.Clean := by
    simp [earlier, Request.Clean, Stmt.literals, Expr.literals, hzero, clean_object, clean_string,
      clean_integer]
  have hreading : reading.Clean := List.forall_mem_singleton.mpr (clean_object 0)
  have hsession := session_clean (fresh 10) hfresh.standard hfresh.machine earlier hearlier
    reading hreading
  have hanswer : (((fresh 10).after earlier).respond reading).1 = some (.ok (.list [zero])) := by
    cbv
  exact ⟨hanswer, hsession.1, hsession.2 (.list [zero]) hanswer⟩

end Interpreter
end MooScript
