import Mathlib
import MooScript.Builtin.Standard
import MooScript.Proofs.Evaluation.Simulation
import MooScript.Proofs.Table

/-! What an evaluation knows of the environment: what the names in it look up, and nothing else. -/
namespace MooScript

open Traced (silent evaluation execution)

theorem Environment.get?_define (environment : Environment) (name : String) (value : Value)
    (x : String) : (environment.define name value).get? x =
      if x = name then some value else environment.get? x := by
  obtain ⟨inner, globals⟩ := environment
  cases inner with
  | nil =>
    simp only [define, get?, List.nil_append, List.findSome?_singleton, Table.get?_insert]
  | cons scope outer =>
    simp only [define, get?, List.cons_append, List.findSome?_cons, Table.get?_insert]
    by_cases hx : x = name
    · rw [if_pos hx, if_pos hx]
    · rw [if_neg hx, if_neg hx]

/-- The stores are one, and every name of `N` is looked up alike. -/
structure Machine.Agrees (N : Set String) (m m' : Machine) : Prop where
  store : m.store = m'.store
  lookup : ∀ x ∈ N, m.environment.get? x = m'.environment.get? x

/-- Machines that agree on the names of `N` give the same outcome, and agree on them again. -/
def Action.DependsOnly {α : Type} (N : Set String) (act : Action α) : Prop :=
  ∀ ⦃m m' : Machine⦄, m.Agrees N m' →
    (act.run m).1 = (act.run m').1 ∧ (act.run m).2.Agrees N (act.run m').2

namespace Traced

variable {α β : Type} {N : Set String}

/-- The traced action and the plain one do the same on machines that agree on the names of `N`. -/
def Coincides (N : Set String) (act : Traced α) (act' : Action α) : Prop :=
  ∀ ⦃m m' : Machine⦄, m.Agrees N m' →
    (act m).result.1 = (act'.run m').1 ∧ (act m).result.2.Agrees N (act'.run m').2

theorem combines_coincides (N : Set String) : Combines fun _ => Coincides N where
  pure a _ _ hm := ⟨rfl, hm⟩
  throw f _ _ hm := ⟨rfl, hm⟩
  bind {_ _ act act' k k'} h hk m m' hm := by
    obtain ⟨houtcome, hagrees⟩ := h hm
    rw [Action.run_bind, ← houtcome]
    rcases bind_cases act k m with ⟨f, m₁, hact, hbind⟩ | ⟨a, m₁, hact, hbind⟩
    · rw [hact] at hagrees
      rw [hbind, hact]
      exact ⟨rfl, hagrees⟩
    · rw [hact] at hagrees
      rw [hbind, hact]
      exact hk a hagrees
  observe {_ _ act act' k k'} h hk _ m m' hm := by
    obtain ⟨houtcome, hagrees⟩ := h hm
    have hrest := hk (act m).result.1 hagrees
    rw [observe_bind]
    rw [houtcome] at hrest ⊢
    exact hrest

theorem coincides_lookup {name : String} (h : name ∈ N) :
    Coincides N (silent (Action.lookup name)) (Action.lookup name) := by
  intro m m' hm
  refine ⟨?_, hm⟩
  change Except.ok ((m.environment.get? name).getD _) =
    Except.ok ((m'.environment.get? name).getD _)
  rw [hm.lookup name h]

theorem coincides_define (name : String) (value : Value) :
    Coincides N (silent (Action.define name value)) (Action.define name value) := by
  refine fun m m' hm => ⟨rfl, hm.store, fun x hx => ?_⟩
  change (m.environment.define name value).get? x = (m'.environment.define name value).get? x
  rw [Environment.get?_define, Environment.get?_define, hm.lookup x hx]

theorem coincides_get {k : Machine → Action α}
    (h : ∀ m m' : Machine, m.Agrees N m' → Coincides N (silent (k m)) (k m')) :
    Coincides N (silent (get >>= k)) (get >>= k) :=
  fun m m' hm => h m m' hm hm

theorem coincides_property (receiver : Value) (name : String) :
    Coincides N (silent (Action.property receiver name)) (Action.property receiver name) := by
  refine coincides_get fun m m' hm => ?_
  rw [hm.store]
  cases receiver with
  | object id =>
    dsimp only
    cases m'.store.property id name with
    | ok value => exact (combines_coincides N).pure value
    | error code => exact (combines_coincides N).pure (Value.error code)
  | _ => exact (combines_coincides N).pure (Value.error .type)

theorem coincides_range (host : Host) (lo hi : Value) :
    Coincides N (silent (Action.range host lo hi)) (Action.range host lo hi) := by
  refine coincides_get fun m m' hm => ?_
  rw [hm.store]
  split <;> exact (combines_coincides N).pure _

theorem coincides_call (host : Host) (name : String) (args : List Value) (token : Token) :
    Coincides N (silent (Action.call host name args token))
      (Action.call host name args token) := by
  unfold Action.call
  cases host.builtins.find? name with
  | none => exact (combines_coincides N).throw _
  | some f =>
    refine coincides_get fun m m' hm => ?_
    rw [hm.store]
    exact fun _ _ _ => ⟨rfl, rfl, hm.lookup⟩

theorem simulation_coincides (host : Host) (N : Set String) :
    Simulation host host (· ∈ N) (fun _ => Coincides N) fun _ => Coincides N where
  toCombines := combines_coincides N
  define := coincides_define
  lookup _ := coincides_lookup
  property := coincides_property
  call := coincides_call host
  range _ _ _ := (combines_coincides N).range (coincides_range host)
  step := id
  evaluation _ := id
  execution _ := id

end Traced

theorem Expr.dependsOnly (host : Host) (e : Expr) {N : Set String} {every : Bool}
    (h : ∀ x ∈ e.names every, x ∈ N) : (e.eval host).DependsOnly N := by
  intro m m' hm
  rw [← e.result_steps host m]
  exact e.simulated (Traced.simulation_coincides host N) h hm

theorem Stmt.dependsOnly (host : Host) (s : Stmt) {N : Set String} {every : Bool}
    (h : ∀ x ∈ s.names every, x ∈ N) : (s.exec host).DependsOnly N := by
  intro m m' hm
  rw [← s.result_steps host m]
  exact s.simulated (Traced.simulation_coincides host N) h hm

/-- A statement depends only on the names that it mentions; of those, the names that it only calls
or assigns to need not be looked up alike either. So it is not by variables that a name which is
called reaches a function. -/
theorem Stmt.exec_dependsOnly_names (host : Host) :
    (∀ s : Stmt, (s.exec host).DependsOnly { x | x ∈ s.names true }) ∧
    (∀ (s : Stmt) (N : Set String), (∀ x ∈ s.names false, x ∈ N) →
      (s.exec host).DependsOnly N) ∧
    ∀ (name : String) (t t' : Token) (args : List Expr) (N : Set String),
      (∀ x ∈ Expr.namesAll false args, x ∈ N) →
      ((Expr.call (.identifier name t) args t').eval host).DependsOnly N := by
  refine ⟨fun s => s.dependsOnly host fun _ => id, fun s N h => s.dependsOnly host h,
    fun name t t' args N h => ?_⟩
  have hnames : ∀ x ∈ (Expr.call (.identifier name t) args t').names false, x ∈ N := h
  exact Expr.dependsOnly host _ hnames

/-- A call of `length` where there is also a variable of that name, in a scope more. -/
theorem Stmt.exec_dependsOnly_names_called :
    let t : Token := .endOfInput none
    let call : Expr := .call (.identifier "length" t) [.identifier "xs" t] t
    let s : Stmt := .block [.expr (.binary .assign (.identifier "n" t) call t),
      .return_ (.identifier "n" t) t]
    let host : Host := ⟨10, .standard⟩
    let xs : String × Value := ("xs", .list [.integer 3, .integer 4])
    let m : Machine := ⟨⟨[], .ofList [xs]⟩, .initial⟩
    let m' : Machine := ⟨⟨[.ofList [xs]], .ofList [("length", .integer 1)]⟩, .initial⟩
    let N : Set String := {"xs", "n"}
    m.Agrees N m' ∧ ((s.exec host).run m).1 = .ok (.returned (.integer 2)) ∧
      ((s.exec host).run m).1 = ((s.exec host).run m').1 ∧
      ((s.exec host).run m).2.Agrees N ((s.exec host).run m').2 := by
  intro t call s host xs m m' N
  have hagrees : m.Agrees N m' := by
    refine ⟨rfl, ?_⟩
    rintro x (rfl | rfl)
    · cbv
    · cbv
  have hnames : ∀ x ∈ s.names false, x ∈ N := by
    have heq : s.names false = ["xs", "n"] := by cbv
    simp [heq, N]
  exact ⟨hagrees, by cbv, (Stmt.exec_dependsOnly_names host).2.1 s N hnames hagrees⟩

end MooScript
