import MooScript.Evaluation

/-! Invariants of evaluations: what a machine keeps whatever is evaluated on it, and what all
values that come up have in common. `Invariant` lists what has to be shown of single definitions,
reads, operators and calls; from that, evaluation and execution keep it. -/
namespace MooScript

mutual

def Expr.literals : Expr → List Value
  | .binary _ left right _ => left.literals ++ right.literals
  | .unary _ operand _ => operand.literals
  | .grouping inner _ => inner.literals
  | .literal value _ => [value]
  | .identifier _ _ => []
  | .list elements _ => Expr.literalsAll elements
  | .range first last _ => first.literals ++ last.literals
  | .property object _ _ => object.literals
  | .call callee args _ => callee.literals ++ Expr.literalsAll args
  | .verbCall object _ args _ => object.literals ++ Expr.literalsAll args
  | .recover body filters alternative _ =>
    body.literals ++ (Expr.literalsAll filters ++ alternative.literals)

def Expr.literalsAll : List Expr → List Value
  | [] => []
  | e :: es => e.literals ++ Expr.literalsAll es

end

mutual

def Stmt.literals : Stmt → List Value
  | .expr e => e.literals
  | .block body => Stmt.literalsAll body
  | .return_ e _ => e.literals
  | .if_ conditions consequences otherwise _ =>
    Stmt.literalsOfBranches conditions consequences ++ Stmt.literalsOfElse otherwise
  | .for_ _ iterable body _ => iterable.literals ++ body.literals
  | .try_ body arms _ => body.literals ++ Arm.literalsAll arms

def Stmt.literalsAll : List Stmt → List Value
  | [] => []
  | s :: ss => s.literals ++ Stmt.literalsAll ss

/-- Conditions and consequences in turn, as they are written. -/
def Stmt.literalsOfBranches : List Expr → List Stmt → List Value
  | conditions, [] => Expr.literalsAll conditions
  | [], body :: bodies => body.literals ++ Stmt.literalsOfBranches [] bodies
  | condition :: conditions, body :: bodies =>
    condition.literals ++ (body.literals ++ Stmt.literalsOfBranches conditions bodies)

def Stmt.literalsOfElse : Option Stmt → List Value
  | none => []
  | some s => s.literals

def Arm.literalsAll : List Arm → List Value
  | [] => []
  | .mk _ filters body _ :: arms =>
    Expr.literalsAll filters ++ (body.literals ++ Arm.literalsAll arms)

end

/-- A property `I` of machines and a property `V` of values that go together: a machine with `I`
gives only values with `V`, and keeps `I` when it is given values with `V`. -/
structure Invariant (host : Host) (I : Machine → Prop) (V : Value → Prop) : Prop where
  define : ∀ {m : Machine} (name : String) {value : Value}, I m → V value →
    I { m with environment := m.environment.define name value }
  lookup : ∀ {m : Machine} {name : String} {value : Value}, I m →
    m.environment.get? name = some value → V value
  property : ∀ {m : Machine} {id : ObjectId} {name : String} {value : Value}, I m →
    m.store.property id name = .ok value → V value
  call : ∀ {m : Machine} {name : String} {f : Builtin} {args : List Value}, I m →
    host.builtins.find? name = some f → (∀ a ∈ args, V a) →
    I { m with store := (f args m.store).2 } ∧ V (f args m.store).1
  error : ∀ code, V (.error code)
  boolean : ∀ b, V (.boolean b)
  zero : V (.integer 0)
  list : ∀ {items : List Value}, V (.list items) ↔ ∀ item ∈ items, V item
  items : ∀ {value : Value} {aggregate : Aggregate}, V value →
    value.aggregate? = some aggregate → ∀ item ∈ aggregate.items, V item
  range : ∀ first last limit, V (Ordinal.range first last limit)
  unary : ∀ op {value : Value}, V value → V (value.applyUnary op)
  binary : ∀ op {a b : Value}, V a → V b → V (a.applyBinary op b)

variable {α β : Type} {I : Machine → Prop} {V : Value → Prop} {P : α → Prop} {Q : β → Prop}
variable {host : Host}

namespace Action

/-- The action keeps `I` whether it faults or not, and what it yields has `P`. -/
def Keeps (I : Machine → Prop) (P : α → Prop) (act : Action α) : Prop :=
  ∀ m, I m → I (act.run m).2 ∧ ∀ a, (act.run m).1 = .ok a → P a

theorem keeps_pure {a : α} (ha : P a) : Keeps I P (pure a) := by
  intro m hm
  refine ⟨hm, fun a' ha' => ?_⟩
  cases ha'
  exact ha

theorem keeps_throw (f : Fault) : Keeps I P (throw f) := by
  intro m hm
  refine ⟨hm, fun a ha => ?_⟩
  cases ha

theorem keeps_get : Keeps I I (get : Action Machine) := by
  intro m hm
  refine ⟨hm, fun m' hm' => ?_⟩
  cases hm'
  exact hm

theorem Keeps.bind {act : Action α} {k : α → Action β} (h : Keeps I P act)
    (hk : ∀ a, P a → Keeps I Q (k a)) : Keeps I Q (act >>= k) := by
  intro m hm
  obtain ⟨hm', ha⟩ := h m hm
  rw [run_bind]
  cases hact : (act.run m).1 with
  | error f => exact keeps_throw f _ hm'
  | ok a => exact hk a (ha a hact) _ hm'

theorem Keeps.ite {c : Prop} [Decidable c] {act act' : Action α} (h : Keeps I P act)
    (h' : Keeps I P act') : Keeps I P (if c then act else act') := by
  split <;> assumption

/-- An observed action keeps what it keeps, and so does what goes on from its outcome. -/
theorem Keeps.observe_bind {act : Action α} {k : Except Fault α → Action β} (h : Keeps I P act)
    (hk : ∀ outcome, (∀ a, outcome = .ok a → P a) → Keeps I Q (k outcome)) :
    Keeps I Q (observe act >>= k) := by
  intro m hm
  obtain ⟨hm', ha⟩ := h m hm
  exact hk (act.run m).1 ha (act.run m).2 hm'

theorem keeps_liftExcept {outcome : Except Fault α} (h : ∀ a, outcome = .ok a → P a) :
    Keeps I P (liftExcept outcome : Action α) := by
  cases outcome with
  | ok a => exact keeps_pure (h a rfl)
  | error f => exact keeps_throw f

theorem keeps_raise {code : ErrorCode} {token : Token} : Keeps I P (raise code token) :=
  keeps_throw _

theorem keeps_demand {token : Token} {value : Value} (h : V value) :
    Keeps I V (demand token value) := by
  cases value with
  | error code => exact keeps_raise
  | _ => exact keeps_pure h

theorem Keeps.anyOr {selected : Action Bool} (h : Keeps I (fun _ => True) selected)
    (filters : List Expr) : Keeps I (fun _ => True) (anyOr filters selected) :=
  Keeps.ite (keeps_pure trivial) h

theorem Keeps.forEach {step : Value → Action Flow} {last : Value} {values : List Value}
    (h : ∀ value ∈ values, Keeps I (fun flow => V flow.value) (step value)) (hlast : V last) :
    Keeps I (fun flow => V flow.value) (forEach step last values) := by
  induction values generalizing last with
  | nil => exact keeps_pure hlast
  | cons value values ih =>
    obtain ⟨hvalue, hvalues⟩ := List.forall_mem_cons.mp h
    apply hvalue.bind
    intro flow hflow
    cases flow with
    | completed last => exact ih hvalues hflow
    | returned value => exact keeps_pure hflow

end Action

open MooScript.Action

namespace Invariant

variable (inv : Invariant host I V)
include inv

theorem keeps_define (name : String) {value : Value} (h : V value) :
    Keeps I (fun _ => True) (Action.define name value) :=
  fun _ hm => ⟨inv.define name hm h, fun _ _ => trivial⟩

theorem keeps_lookup (name : String) : Keeps I V (Action.lookup name) := by
  refine keeps_get.bind fun m hm => keeps_pure ?_
  cases hname : m.environment.get? name with
  | none => exact inv.error .varNotFound
  | some value => exact inv.lookup hm hname

theorem keeps_property (receiver : Value) (name : String) :
    Keeps I V (Action.property receiver name) := by
  refine keeps_get.bind fun m hm => ?_
  cases receiver with
  | object id =>
    dsimp only
    cases hproperty : m.store.property id name with
    | error code => exact keeps_pure (inv.error code)
    | ok value => exact keeps_pure (inv.property hm hproperty)
  | _ => exact keeps_pure (inv.error .type)

theorem keeps_range (first last : Value) : Keeps I V (Action.range host first last) := by
  refine keeps_get.bind fun m hm => ?_
  have hrange := inv.range first last host.maxRangeLength
  split
  next items heq =>
    rw [heq, inv.list] at hrange
    exact keeps_pure (inv.list.mpr fun item hitem => hrange item (List.mem_filter.mp hitem).1)
  next => exact keeps_pure hrange

theorem keeps_call (name : String) {args : List Value} (hargs : ∀ a ∈ args, V a) (token : Token) :
    Keeps I V (Action.call host name args token) := by
  unfold Action.call
  cases hname : host.builtins.find? name with
  | none => exact keeps_throw _
  | some f =>
    intro m hm
    obtain ⟨hm', hvalue⟩ := inv.call hm hname hargs
    refine ⟨hm', fun a ha => ?_⟩
    cases ha
    exact hvalue

end Invariant

mutual

theorem Expr.eval_keeps (inv : Invariant host I V) (e : Expr) (h : ∀ v ∈ e.literals, V v) :
    Keeps I V (e.eval host) := by
  cases e with
  | literal value t => exact keeps_pure (h value List.mem_cons_self)
  | identifier name t => exact inv.keeps_lookup name
  | grouping inner t => exact inner.eval_keeps inv h
  | list elements t =>
    exact (Expr.evalAll_keeps inv elements h).bind fun values hvalues =>
      keeps_pure (inv.list.mpr hvalues)
  | range first last t =>
    obtain ⟨hfirst, hlast⟩ := List.forall_mem_append.mp h
    refine (first.eval_keeps inv hfirst).bind fun lo hlo => ?_
    refine (keeps_demand hlo).bind fun lo _ => ?_
    refine (last.eval_keeps inv hlast).bind fun hi hhi => ?_
    exact (keeps_demand hhi).bind fun hi _ => inv.keeps_range lo hi
  | unary op operand t =>
    have hoperand := operand.eval_keeps inv h
    cases op with
    | not => exact hoperand.bind fun value hvalue => keeps_pure (inv.unary .not hvalue)
    | neg =>
      refine hoperand.bind fun value hvalue => ?_
      exact (keeps_demand hvalue).bind fun value hvalue => keeps_pure (inv.unary .neg hvalue)
  | binary op left right t =>
    obtain ⟨hleft, hright⟩ := List.forall_mem_append.mp h
    have hl := left.eval_keeps inv hleft
    have hr := right.eval_keeps inv hright
    have htruth (b : Bool) : Keeps I V (pure (.boolean b)) := keeps_pure (inv.boolean b)
    cases op with
    | assign =>
      rw [Expr.eval]
      cases left.name? with
      | none => exact keeps_raise
      | some name =>
        exact hr.bind fun value hvalue =>
          (inv.keeps_define name hvalue).bind fun _ _ => keeps_pure hvalue
    | and => exact hl.bind fun a _ => (hr.bind fun b _ => htruth _).ite (htruth _)
    | or => exact hl.bind fun a _ => (htruth _).ite (hr.bind fun b _ => htruth _)
    | xor | eq | ne =>
      exact hl.bind fun a ha => hr.bind fun b hb => keeps_pure (inv.binary _ ha hb)
    | lt | le | gt | ge | add | sub | mul | div | rem =>
      refine hl.bind fun a ha => (keeps_demand ha).bind fun a ha => ?_
      refine hr.bind fun b hb => (keeps_demand hb).bind fun b hb => ?_
      exact keeps_pure (inv.binary _ ha hb)
  | property object name t =>
    refine (object.eval_keeps inv h).bind fun receiver hreceiver => ?_
    exact (keeps_demand hreceiver).bind fun receiver _ => inv.keeps_property receiver name
  | call callee args t =>
    obtain ⟨hcallee, hargs⟩ := List.forall_mem_append.mp h
    have hcall : ∀ name, Keeps I V (do
        let values ← Expr.evalAll host args
        Action.call host name values t) := fun name =>
      (Expr.evalAll_keeps inv args hargs).bind fun values hvalues => inv.keeps_call name hvalues t
    rw [Expr.eval]
    cases callee.name? with
    | some name => exact hcall name
    | none =>
      refine (callee.eval_keeps inv hcallee).bind fun value hvalue => ?_
      refine (keeps_demand hvalue).bind fun value _ => ?_
      have hname : Keeps I (fun _ => True) (raise .type callee.token : Action String) :=
        keeps_raise
      cases value with
      | string name => exact hcall name
      | _ => exact hname.bind fun name _ => hcall name
  | verbCall object verb args t =>
    obtain ⟨hobject, hargs⟩ := List.forall_mem_append.mp h
    refine (object.eval_keeps inv hobject).bind fun _ _ => ?_
    exact (Expr.evalAll_keeps inv args hargs).bind fun _ _ => keeps_throw _
  | recover body filters alternative t =>
    obtain ⟨hbody, hparts⟩ := List.forall_mem_append.mp h
    obtain ⟨hfilters, halternative⟩ := List.forall_mem_append.mp hparts
    refine (body.eval_keeps inv hbody).observe_bind fun outcome houtcome => ?_
    -- The filters start from the machine that the body left, with or without a fault.
    cases errorCode? outcome with
    | none => exact keeps_liftExcept houtcome
    | some code =>
      refine ((Expr.matchesAny_keeps inv code filters hfilters).anyOr filters).bind fun _ _ => ?_
      exact (alternative.eval_keeps inv halternative).ite (keeps_liftExcept houtcome)

theorem Expr.evalAll_keeps (inv : Invariant host I V) (es : List Expr)
    (h : ∀ v ∈ Expr.literalsAll es, V v) :
    Keeps I (fun values => ∀ v ∈ values, V v) (Expr.evalAll host es) := by
  cases es with
  | nil => exact keeps_pure (List.forall_mem_nil V)
  | cons e es =>
    obtain ⟨he, hes⟩ := List.forall_mem_append.mp h
    refine (e.eval_keeps inv he).bind fun value hvalue => ?_
    exact (Expr.evalAll_keeps inv es hes).bind fun values hvalues =>
      keeps_pure (List.forall_mem_cons.mpr ⟨hvalue, hvalues⟩)

theorem Expr.matchesAny_keeps (inv : Invariant host I V) (code : ErrorCode) (es : List Expr)
    (h : ∀ v ∈ Expr.literalsAll es, V v) :
    Keeps I (fun _ => True) (Expr.matchesAny host code es) := by
  cases es with
  | nil => exact keeps_pure trivial
  | cons e es =>
    obtain ⟨he, hes⟩ := List.forall_mem_append.mp h
    refine (e.eval_keeps inv he).bind fun value _ => ?_
    exact (keeps_pure trivial).ite (Expr.matchesAny_keeps inv code es hes)

end

mutual

theorem Stmt.exec_keeps (inv : Invariant host I V) (s : Stmt) (h : ∀ v ∈ s.literals, V v) :
    Keeps I (fun flow => V flow.value) (s.exec host) := by
  cases s with
  | expr e =>
    refine (e.eval_keeps inv h).bind fun value hvalue => ?_
    exact (keeps_demand hvalue).bind fun value hvalue => keeps_pure hvalue
  | block body => exact Stmt.execAll_keeps inv inv.zero body h
  | return_ e t => exact (e.eval_keeps inv h).bind fun value hvalue => keeps_pure hvalue
  | if_ conditions consequences otherwise t =>
    obtain ⟨hbranches, hotherwise⟩ := List.forall_mem_append.mp h
    exact Stmt.execBranches_keeps inv conditions consequences hbranches
      (Stmt.execElse_keeps inv otherwise hotherwise)
  | for_ var iterable body t =>
    obtain ⟨hiterable, hbody⟩ := List.forall_mem_append.mp h
    refine (iterable.eval_keeps inv hiterable).bind fun value hvalue => ?_
    refine (keeps_demand hvalue).bind fun value hvalue => ?_
    cases haggregate : value.aggregate? with
    | none => exact keeps_raise
    | some aggregate =>
      refine Keeps.forEach (fun item hitem => ?_) (inv.boolean false)
      have hitem' := inv.items hvalue haggregate item hitem
      exact (inv.keeps_define var hitem').bind fun _ _ => body.exec_keeps inv hbody
  | try_ body arms t =>
    obtain ⟨hbody, harms⟩ := List.forall_mem_append.mp h
    refine (body.exec_keeps inv hbody).observe_bind fun outcome houtcome => ?_
    cases outcome with
    | ok flow => exact keeps_pure (houtcome flow rfl)
    | error fault =>
      cases fault with
      | raised code location => exact Arm.handle_keeps inv code arms harms (keeps_throw _)
      | unknownFunction name location => exact keeps_throw _
      | unimplementedVerb verb location => exact keeps_throw _

theorem Stmt.execAll_keeps (inv : Invariant host I V) {last : Value} (hlast : V last)
    (ss : List Stmt) (h : ∀ v ∈ Stmt.literalsAll ss, V v) :
    Keeps I (fun flow => V flow.value) (Stmt.execAll host last ss) := by
  cases ss with
  | nil => exact keeps_pure hlast
  | cons s ss =>
    obtain ⟨hs, hss⟩ := List.forall_mem_append.mp h
    refine (s.exec_keeps inv hs).bind fun flow hflow => ?_
    cases flow with
    | completed last => exact Stmt.execAll_keeps inv hflow ss hss
    | returned value => exact keeps_pure hflow

theorem Stmt.execElse_keeps (inv : Invariant host I V) (otherwise : Option Stmt)
    (h : ∀ v ∈ Stmt.literalsOfElse otherwise, V v) :
    Keeps I (fun flow => V flow.value) (Stmt.execElse host otherwise) := by
  cases otherwise with
  | none => exact keeps_pure (inv.boolean false)
  | some s => exact s.exec_keeps inv h

theorem Stmt.execBranches_keeps (inv : Invariant host I V) {otherwise : Action Flow}
    (conditions : List Expr) (bodies : List Stmt)
    (h : ∀ v ∈ Stmt.literalsOfBranches conditions bodies, V v)
    (ho : Keeps I (fun flow => V flow.value) otherwise) :
    Keeps I (fun flow => V flow.value) (Stmt.execBranches host otherwise conditions bodies) := by
  cases conditions with
  | nil => cases bodies <;> exact ho
  | cons condition conditions =>
    cases bodies with
    | nil => exact ho
    | cons body bodies =>
      obtain ⟨hcondition, hparts⟩ := List.forall_mem_append.mp h
      obtain ⟨hbody, hbranches⟩ := List.forall_mem_append.mp hparts
      refine (condition.eval_keeps inv hcondition).bind fun value hvalue => ?_
      refine (keeps_demand hvalue).bind fun value _ => ?_
      exact (body.exec_keeps inv hbody).ite
        (Stmt.execBranches_keeps inv conditions bodies hbranches ho)

theorem Arm.handle_keeps (inv : Invariant host I V) (code : ErrorCode) {unhandled : Action Flow}
    (arms : List Arm) (h : ∀ v ∈ Arm.literalsAll arms, V v)
    (hu : Keeps I (fun flow => V flow.value) unhandled) :
    Keeps I (fun flow => V flow.value) (Arm.handle host code unhandled arms) := by
  cases arms with
  | nil => exact hu
  | cons arm arms =>
    obtain ⟨binding, filters, body, t⟩ := arm
    obtain ⟨hfilters, hparts⟩ := List.forall_mem_append.mp h
    obtain ⟨hbody, harms⟩ := List.forall_mem_append.mp hparts
    refine ((Expr.matchesAny_keeps inv code filters hfilters).anyOr filters).bind fun _ _ => ?_
    refine Keeps.ite ?_ (Arm.handle_keeps inv code arms harms hu)
    have hb := body.exec_keeps inv hbody
    cases binding with
    | none => exact hb
    | some name => exact (inv.keeps_define name (inv.error code)).bind fun _ _ => hb

end

end MooScript
