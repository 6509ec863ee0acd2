import Mathlib
import MooScript.Builtin.Standard
import MooScript.Proofs.Evaluation.Simulation

/-! Loops and their iterations written out. The values are those of before the first iteration, and
an iteration that returns or fails is the last. -/
namespace MooScript

open MooScript.Action (demand define forEach)
open Traced (silent evaluation execution)

variable {host : Host} {var : String} {body : Stmt} {t : Token} {values : List Value}

/-- The iterations of a loop written out: every value is assigned to the variable, and the body
follows. -/
def Stmt.unrolled (var : String) (body : Stmt) (t : Token) (values : List Value) : List Stmt :=
  values.flatMap fun v => [.expr (.binary .assign (.identifier var t) (.literal v t) t), body]

/-- The iterations of a loop, with what happens in them. -/
def Stmt.iterations (host : Host) (var : String) (body : Stmt) : List Value → Traced Flow :=
  Traced.forEach
    (fun item => do
      silent (define var item)
      execution body (body.steps host))
    (.boolean false)

theorem Action.demand_of_errorCode? {value : Value} (token : Token) (h : value.errorCode? = none) :
    demand token value = pure value := by
  cases value with
  | error code => cases h
  | _ => rfl

theorem Value.errorCode?_of_aggregate? {value : Value} {aggregate : Aggregate}
    (h : value.aggregate? = some aggregate) : value.errorCode? = none := by
  cases value with
  | error code => cases h
  | _ => rfl

/-! ### One iteration after another -/

/-- What the last value was before matters only where there are no iterations. -/
theorem Action.forEach_last {step : Value → Action Flow} (h : values ≠ []) (last last' : Value) :
    forEach step last values = forEach step last' values := by
  cases values with
  | nil => exact absurd rfl h
  | cons value values => rfl

theorem Stmt.exec_assignment {v : Value} (h : v.errorCode? = none) :
    (Stmt.expr (.binary .assign (.identifier var t) (.literal v t) t)).exec host = (do
      define var v
      return .completed v) := by
  have hassign : (Expr.binary .assign (.identifier var t) (.literal v t) t).eval host = (do
      define var v
      return v) := by
    rw [Expr.eval, Expr.name?]
    rfl
  rw [Stmt.exec, hassign, bind_assoc]
  simp only [pure_bind, Action.demand_of_errorCode? _ h]

theorem Stmt.execAll_unrolled (h : ∀ v ∈ values, v.errorCode? = none) (last : Value) :
    Stmt.execAll host last (Stmt.unrolled var body t values) =
      forEach (fun item => do define var item; body.exec host) last values := by
  induction values generalizing last with
  | nil => rfl
  | cons v values ih =>
    obtain ⟨hv, hvalues⟩ := List.forall_mem_cons.mp h
    have hcons : Stmt.unrolled var body t (v :: values) =
        .expr (.binary .assign (.identifier var t) (.literal v t) t) :: body ::
          Stmt.unrolled var body t values := rfl
    rw [hcons, Stmt.execAll, Stmt.exec_assignment hv, forEach, bind_assoc, bind_assoc]
    simp only [pure_bind, Stmt.execAll, ih hvalues]

/-- After an iteration that returns or fails there is no other. -/
theorem Traced.forEach_append {step : Value → Traced Flow} {last : Value} {done : List Value}
    {m m' : Machine} {outcome : Except Fault Flow}
    (h : (Traced.forEach step last done m).result = (outcome, m'))
    (hend : ∀ v, outcome ≠ .ok (.completed v)) (later : List Value) :
    Traced.forEach step last (done ++ later) m = Traced.forEach step last done m := by
  induction done generalizing last m with
  | nil =>
    cases h
    exact absurd rfl (hend last)
  | cons value done ih =>
    rw [List.cons_append]
    rw [Traced.forEach] at h ⊢
    rw [Traced.forEach]
    cases hstep : (step value m).result with
    | mk outcome₁ m₁ =>
      cases outcome₁ with
      | error f => rw [bind_of_error hstep, bind_of_error hstep]
      | ok flow =>
        rw [bind_of_ok hstep] at h
        rw [bind_of_ok hstep, bind_of_ok hstep]
        cases flow with
        | completed last => simp only [ih h]
        | returned value => rfl

/-! ### Loops -/

section Loop

variable {iterable : Expr} {m m₁ : Machine} {value : Value} {aggregate : Aggregate}

/-- A loop goes on from where its values came about. -/
theorem Stmt.steps_for (t₁ : Token) (heval : (iterable.eval host).run m = (.ok value, m₁))
    (hvalue : value.aggregate? = some aggregate) :
    (Stmt.for_ var iterable body t₁).steps host m =
      ⟨(Stmt.iterations host var body aggregate.items m₁).result, iterable.events host m ++
        (Stmt.iterations host var body aggregate.items m₁).events⟩ := by
  have hiterable : (evaluation iterable (iterable.steps host) m).result = (.ok value, m₁) :=
    (iterable.result_steps host m).trans heval
  have hdemand : (silent (demand iterable.token value) m₁).result = (.ok value, m₁) := by
    rw [Action.demand_of_errorCode? _ (Value.errorCode?_of_aggregate? hvalue)]
    rfl
  rw [Stmt.steps, Traced.bind_of_ok hiterable, Traced.bind_of_ok hdemand]
  simp only [hvalue]
  rfl

theorem Stmt.result_iterations (host : Host) (var : String) (body : Stmt) (values : List Value)
    (m : Machine) : (Stmt.iterations host var body values m).result =
      (forEach (fun item => do define var item; body.exec host) (.boolean false) values).run m := by
  have c := Traced.compatible_tells host
  have hstep item : Traced.Tells host (do
        silent (define var item)
        execution body (body.steps host)) (do
        define var item
        body.exec host) :=
    c.bind (c.silent _) fun _ => c.execution body (body.steps_related c)
  exact (c.combines.forEach hstep (.boolean false) values m).1

/-- The iterations of a loop and the block of them written out end alike. -/
theorem Stmt.result_iterations_unrolled (t : Token) (hnonempty : values ≠ [])
    (hclean : ∀ v ∈ values, v.errorCode? = none) (m : Machine) :
    (Stmt.iterations host var body values m).result =
      ((Stmt.block (Stmt.unrolled var body t values)).exec host).run m := by
  rw [Stmt.result_iterations, Stmt.exec, Stmt.execAll_unrolled hclean,
    Action.forEach_last hnonempty]

/-- A loop over a list or a string does what its iterations, written out in a block with the values
as literals, do from where the values came about, whatever the body changes. When some of the first
iterations return or fail, the loop ends as they do, and all that happens in it is the evaluation
of its values and those iterations. -/
theorem Stmt.exec_for_unrolled (var : String) (body : Stmt) (t₁ t : Token)
    (heval : (iterable.eval host).run m = (.ok value, m₁))
    (hvalue : value.aggregate? = some aggregate) (hnonempty : aggregate.items ≠ [])
    (hclean : ∀ v ∈ aggregate.items, v.errorCode? = none) :
    let loop : Stmt := .for_ var iterable body t₁
    let written (values : List Value) : Stmt := .block (Stmt.unrolled var body t values)
    (loop.exec host).run m = ((written aggregate.items).exec host).run m₁ ∧
    ∀ done later : List Value, aggregate.items = done ++ later →
      ∀ outcome m', ((written done).exec host).run m₁ = (outcome, m') →
        (∀ v, outcome ≠ .ok (.completed v)) →
        (loop.exec host).run m = (outcome, m') ∧
        loop.events host m = .executing loop :: (iterable.events host m ++
          (Stmt.iterations host var body done m₁).events ++ [.executed loop outcome m']) := by
  intro loop written
  have hsteps : loop.steps host m = _ := Stmt.steps_for t₁ heval hvalue
  refine ⟨?_, fun done later hitems outcome m' hdone hend => ?_⟩
  · rw [← Stmt.result_steps, hsteps]
    exact Stmt.result_iterations_unrolled t hnonempty hclean m₁
  · have hfirst : done ≠ [] := by
      rintro rfl
      cases hdone
      exact hend _ rfl
    have hresult : (Stmt.iterations host var body done m₁).result = (outcome, m') := by
      rw [Stmt.result_iterations_unrolled t hfirst, hdone]
      exact fun v hv => hclean v (hitems ▸ List.mem_append_left later hv)
    -- The other iterations are not even begun.
    have hiterations : Stmt.iterations host var body aggregate.items m₁ =
        Stmt.iterations host var body done m₁ :=
      hitems ▸ Traced.forEach_append hresult hend later
    rw [hiterations, hresult] at hsteps
    refine ⟨by rw [← Stmt.result_steps, hsteps], ?_⟩
    rw [Stmt.events, execution, hsteps]

/-- A body that changes the variable the values come from, and returns in the first of two
iterations. -/
theorem Stmt.exec_for_unrolled_returned :
    let t : Token := .endOfInput none
    let xs : Expr := .identifier "xs" t
    let one : Expr := .literal (.integer 1) t
    let body : Stmt :=
      .block [.expr (.binary .assign xs one t), .return_ (.identifier "x" t) t]
    let loop : Stmt := .for_ "x" xs body t
    let host : Host := ⟨10, .standard⟩
    let items : List Value := [.integer 3, .integer 4]
    let bound (entries : List (String × Value)) : Machine := ⟨⟨[], .ofList entries⟩, .initial⟩
    let m : Machine := bound [("xs", .list items)]
    let m' : Machine := bound [("xs", .integer 1), ("x", .integer 3)]
    (loop.exec host).run m =
        ((Stmt.block (Stmt.unrolled "x" body t items)).exec host).run m ∧
      (loop.exec host).run m = (.ok (.returned (.integer 3)), m') ∧
      loop.events host m = .executing loop :: (xs.events host m ++
        (Stmt.iterations host "x" body [.integer 3] m).events ++
          [.executed loop (.ok (.returned (.integer 3))) m']) := by
  intro t xs one body loop host items bound m m'
  have heval : (xs.eval host).run m = (.ok (.list items), m) := by cbv
  have hvalue : (Value.list items).aggregate? = some (.list items) := rfl
  have hclean : ∀ v ∈ items, v.errorCode? = none :=
    List.forall_mem_cons.mpr ⟨rfl, List.forall_mem_singleton.mpr rfl⟩
  obtain ⟨hall, hfirst⟩ :=
    Stmt.exec_for_unrolled "x" body t t heval hvalue (List.cons_ne_nil _ _) hclean
  refine ⟨hall, hfirst [.integer 3] [.integer 4] rfl (.ok (.returned (.integer 3))) m' ?_ ?_⟩
  · cbv
  · intro v h
    cases h

end Loop

end MooScript
