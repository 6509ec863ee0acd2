import MooScript.Evaluation
import MooScript.Proofs.Syntax.Tokens

/-! Every fault of an evaluation is blamed on a token of the tree. -/
namespace MooScript

variable {α β : Type} {L : Location → Prop}

namespace Action

/-- Faults of the action have locations in `L`, whatever machine it starts from. -/
def FaultsIn (L : Location → Prop) (act : Action α) : Prop :=
  ∀ m f, (act.run m).1 = .error f → L f.location

theorem faultsIn_pure (a : α) : FaultsIn L (pure a : Action α) := by
  intro m f h
  cases h

theorem faultsIn_throw {f : Fault} (h : L f.location) : FaultsIn L (throw f : Action α) := by
  intro m f' hf
  cases hf
  exact h

theorem faultsIn_get : FaultsIn L (get : Action Machine) := by
  intro m f h
  cases h

theorem FaultsIn.bind {act : Action α} {k : α → Action β} (h : FaultsIn L act)
    (hk : ∀ a, FaultsIn L (k a)) : FaultsIn L (act >>= k) := by
  intro m f hf
  rw [run_bind] at hf
  cases hact : (act.run m).1 with
  | error f' =>
    rw [hact] at hf
    cases hf
    exact h m f hact
  | ok a =>
    rw [hact] at hf
    exact hk a _ f hf

theorem FaultsIn.ite {c : Prop} [Decidable c] {act act' : Action α} (h : FaultsIn L act)
    (h' : FaultsIn L act') : FaultsIn L (if c then act else act') := by
  split <;> assumption

/-- An observed action does not fault itself, and its outcome has no other faults. -/
theorem FaultsIn.observe_bind {act : Action α} {k : Except Fault α → Action β}
    (h : FaultsIn L act)
    (hk : ∀ outcome, (∀ f, outcome = .error f → L f.location) → FaultsIn L (k outcome)) :
    FaultsIn L (observe act >>= k) := by
  intro m f hf
  exact hk (act.run m).1 (fun f' hf' => h m f' hf') (act.run m).2 f hf

theorem faultsIn_liftExcept {outcome : Except Fault α}
    (h : ∀ f, outcome = .error f → L f.location) :
    FaultsIn L (liftExcept outcome : Action α) := by
  cases outcome with
  | ok a => exact faultsIn_pure a
  | error f => exact faultsIn_throw (h f rfl)

theorem faultsIn_define (name : String) (value : Value) : FaultsIn L (define name value) := by
  intro m f h
  cases h

theorem faultsIn_raise {code : ErrorCode} {token : Token} (h : L token.location) :
    FaultsIn L (raise code token : Action α) :=
  faultsIn_throw h

theorem faultsIn_demand {token : Token} (h : L token.location) (value : Value) :
    FaultsIn L (demand token value) := by
  cases value with
  | error code => exact faultsIn_raise h
  | _ => exact faultsIn_pure _

theorem faultsIn_lookup (name : String) : FaultsIn L (lookup name) := by
  intro m f h
  cases h

theorem faultsIn_property (receiver : Value) (name : String) :
    FaultsIn L (property receiver name) := by
  refine FaultsIn.bind faultsIn_get fun m => ?_
  cases receiver with
  | object id =>
    dsimp only
    cases m.store.property id name <;> exact faultsIn_pure _
  | _ => exact faultsIn_pure _

theorem faultsIn_range (host : Host) (first last : Value) : FaultsIn L (range host first last) := by
  refine FaultsIn.bind faultsIn_get fun m => ?_
  split <;> exact faultsIn_pure _

theorem faultsIn_call {token : Token} (h : L token.location) (host : Host) (name : String)
    (args : List Value) : FaultsIn L (call host name args token) := by
  unfold call
  cases host.builtins.find? name with
  | none => exact faultsIn_throw h
  | some f =>
    intro m f h
    cases h

theorem FaultsIn.anyOr {selected : Action Bool} (h : FaultsIn L selected) (filters : List Expr) :
    FaultsIn L (anyOr filters selected) :=
  FaultsIn.ite (faultsIn_pure true) h

theorem FaultsIn.forEach {step : Value → Action Flow} (h : ∀ value, FaultsIn L (step value))
    (last : Value) (values : List Value) : FaultsIn L (forEach step last values) := by
  induction values generalizing last with
  | nil => exact faultsIn_pure _
  | cons value values ih =>
    apply (h value).bind
    intro flow
    cases flow with
    | completed last => exact ih last
    | returned value => exact faultsIn_pure _

end Action

open MooScript.Action

mutual

theorem Expr.faultsIn_eval (host : Host) (e : Expr) (h : ∀ t ∈ e.tokens, L t.location) :
    FaultsIn L (e.eval host) := by
  have hown : L e.token.location := h e.token e.token_mem_tokens
  cases e with
  | literal value t => exact faultsIn_pure value
  | identifier name t => exact faultsIn_lookup name
  | grouping inner t =>
    obtain ⟨_, hinner⟩ := List.forall_mem_cons.mp h
    exact inner.faultsIn_eval host hinner
  | list elements t =>
    obtain ⟨_, helements⟩ := List.forall_mem_cons.mp h
    exact (Expr.faultsIn_evalAll host elements helements).bind fun values => faultsIn_pure _
  | range first last t =>
    obtain ⟨_, hbounds⟩ := List.forall_mem_cons.mp h
    obtain ⟨hfirst, hlast⟩ := List.forall_mem_append.mp hbounds
    refine (first.faultsIn_eval host hfirst).bind fun lo => ?_
    refine (faultsIn_demand (hfirst _ first.token_mem_tokens) lo).bind fun lo => ?_
    refine (last.faultsIn_eval host hlast).bind fun hi => ?_
    refine (faultsIn_demand (hlast _ last.token_mem_tokens) hi).bind fun hi => ?_
    exact faultsIn_range host lo hi
  | unary op operand t =>
    obtain ⟨_, hoperand⟩ := List.forall_mem_cons.mp h
    cases op with
    | not => exact (operand.faultsIn_eval host hoperand).bind fun value => faultsIn_pure _
    | neg =>
      refine (operand.faultsIn_eval host hoperand).bind fun value => ?_
      refine (faultsIn_demand (hoperand _ operand.token_mem_tokens) value).bind fun value => ?_
      exact faultsIn_pure _
  | binary op left right t =>
    obtain ⟨_, hsides⟩ := List.forall_mem_cons.mp h
    obtain ⟨hleft, hright⟩ := List.forall_mem_append.mp hsides
    have hl := left.faultsIn_eval host hleft
    have hr := right.faultsIn_eval host hright
    cases op with
    | assign =>
      rw [Expr.eval]
      cases left.name? with
      | none => exact faultsIn_raise hown
      | some name =>
        exact hr.bind fun value => (faultsIn_define name value).bind fun _ => faultsIn_pure _
    | and => exact hl.bind fun a => (hr.bind fun b => faultsIn_pure _).ite (faultsIn_pure _)
    | or => exact hl.bind fun a => (faultsIn_pure _).ite (hr.bind fun b => faultsIn_pure _)
    | xor | eq | ne => exact hl.bind fun a => hr.bind fun b => faultsIn_pure _
    | lt | le | gt | ge | add | sub | mul | div | rem =>
      refine hl.bind fun a => ?_
      refine (faultsIn_demand (hleft _ left.token_mem_tokens) a).bind fun a => ?_
      refine hr.bind fun b => ?_
      refine (faultsIn_demand (hright _ right.token_mem_tokens) b).bind fun b => ?_
      exact faultsIn_pure _
  | property object name t =>
    obtain ⟨_, hobject⟩ := List.forall_mem_cons.mp h
    refine (object.faultsIn_eval host hobject).bind fun receiver => ?_
    refine (faultsIn_demand (hobject _ object.token_mem_tokens) receiver).bind fun receiver => ?_
    exact faultsIn_property receiver name
  | call callee args t =>
    obtain ⟨_, hparts⟩ := List.forall_mem_cons.mp h
    obtain ⟨hcallee, hargs⟩ := List.forall_mem_append.mp hparts
    have hcall : ∀ name, FaultsIn L (do
        let values ← Expr.evalAll host args
        Action.call host name values t) := fun name =>
      (Expr.faultsIn_evalAll host args hargs).bind fun values => faultsIn_call hown host name values
    rw [Expr.eval]
    cases callee.name? with
    | some name => exact hcall name
    | none =>
      refine (callee.faultsIn_eval host hcallee).bind fun value => ?_
      refine (faultsIn_demand (hcallee _ callee.token_mem_tokens) value).bind fun value => ?_
      cases value with
      | string name => exact (faultsIn_pure name).bind hcall
      | _ => exact (faultsIn_raise (hcallee _ callee.token_mem_tokens)).bind hcall
  | verbCall object verb args t =>
    obtain ⟨_, hparts⟩ := List.forall_mem_cons.mp h
    obtain ⟨hobject, hargs⟩ := List.forall_mem_append.mp hparts
    refine (object.faultsIn_eval host hobject).bind fun _ => ?_
    refine (Expr.faultsIn_evalAll host args hargs).bind fun _ => ?_
    exact faultsIn_throw hown
  | recover body filters alternative t =>
    obtain ⟨_, hparts⟩ := List.forall_mem_cons.mp h
    obtain ⟨hbody, hparts⟩ := List.forall_mem_append.mp hparts
    obtain ⟨hfilters, halternative⟩ := List.forall_mem_append.mp hparts
    refine (body.faultsIn_eval host hbody).observe_bind fun outcome houtcome => ?_
    -- What no filter selects goes on as the body left it, its own fault included.
    cases errorCode? outcome with
    | none => exact faultsIn_liftExcept houtcome
    | some code =>
      refine ((Expr.faultsIn_matchesAny host code filters hfilters).anyOr filters).bind fun _ => ?_
      exact (alternative.faultsIn_eval host halternative).ite (faultsIn_liftExcept houtcome)

theorem Expr.faultsIn_evalAll (host : Host) (es : List Expr)
    (h : ∀ t ∈ Expr.tokensAll es, L t.location) : FaultsIn L (Expr.evalAll host es) := by
  cases es with
  | nil => exact faultsIn_pure []
  | cons e es =>
    obtain ⟨he, hes⟩ := List.forall_mem_append.mp h
    refine (e.faultsIn_eval host he).bind fun value => ?_
    exact (Expr.faultsIn_evalAll host es hes).bind fun values => faultsIn_pure _

theorem Expr.faultsIn_matchesAny (host : Host) (code : ErrorCode) (es : List Expr)
    (h : ∀ t ∈ Expr.tokensAll es, L t.location) :
    FaultsIn L (Expr.matchesAny host code es) := by
  cases es with
  | nil => exact faultsIn_pure false
  | cons e es =>
    obtain ⟨he, hes⟩ := List.forall_mem_append.mp h
    refine (e.faultsIn_eval host he).bind fun value => ?_
    exact (faultsIn_pure true).ite (Expr.faultsIn_matchesAny host code es hes)

end

mutual

theorem Stmt.faultsIn_exec (host : Host) (s : Stmt) (h : ∀ t ∈ s.tokens, L t.location) :
    FaultsIn L (s.exec host) := by
  cases s with
  | expr e =>
    refine (e.faultsIn_eval host h).bind fun value => ?_
    exact (faultsIn_demand (h _ e.token_mem_tokens) value).bind fun value => faultsIn_pure _
  | block body => exact Stmt.faultsIn_execAll host (.integer 0) body h
  | return_ e t =>
    obtain ⟨_, he⟩ := List.forall_mem_cons.mp h
    exact (e.faultsIn_eval host he).bind fun value => faultsIn_pure _
  | if_ conditions consequences otherwise t =>
    obtain ⟨_, hparts⟩ := List.forall_mem_cons.mp h
    obtain ⟨hbranches, hotherwise⟩ := List.forall_mem_append.mp hparts
    obtain ⟨hconditions, hconsequences⟩ := List.forall_mem_append.mp hbranches
    exact Stmt.faultsIn_execBranches host conditions consequences hconditions hconsequences
      (Stmt.faultsIn_execElse host otherwise hotherwise)
  | for_ var iterable body t =>
    obtain ⟨_, hparts⟩ := List.forall_mem_cons.mp h
    obtain ⟨hiterable, hbody⟩ := List.forall_mem_append.mp hparts
    have hown := hiterable _ iterable.token_mem_tokens
    refine (iterable.faultsIn_eval host hiterable).bind fun value => ?_
    refine (faultsIn_demand hown value).bind fun value => ?_
    cases value.aggregate? with
    | none => exact faultsIn_raise hown
    | some aggregate =>
      refine FaultsIn.forEach (fun item => ?_) _ _
      exact (faultsIn_define var item).bind fun _ => body.faultsIn_exec host hbody
  | try_ body arms t =>
    obtain ⟨_, hparts⟩ := List.forall_mem_cons.mp h
    obtain ⟨hbody, harms⟩ := List.forall_mem_append.mp hparts
    refine (body.faultsIn_exec host hbody).observe_bind fun outcome houtcome => ?_
    cases outcome with
    | ok flow => exact faultsIn_pure flow
    | error fault =>
      have hfault : FaultsIn L (throw fault : Action Flow) := faultsIn_throw (houtcome fault rfl)
      cases fault with
      | raised code location => exact Arm.faultsIn_handle host code arms harms hfault
      | unknownFunction name location => exact hfault
      | unimplementedVerb verb location => exact hfault

theorem Stmt.faultsIn_execAll (host : Host) (last : Value) (ss : List Stmt)
    (h : ∀ t ∈ Stmt.tokensAll ss, L t.location) : FaultsIn L (Stmt.execAll host last ss) := by
  cases ss with
  | nil => exact faultsIn_pure _
  | cons s ss =>
    obtain ⟨hs, hss⟩ := List.forall_mem_append.mp h
    refine (s.faultsIn_exec host hs).bind fun flow => ?_
    cases flow with
    | completed last => exact Stmt.faultsIn_execAll host last ss hss
    | returned value => exact faultsIn_pure _

theorem Stmt.faultsIn_execElse (host : Host) (otherwise : Option Stmt)
    (h : ∀ t ∈ Stmt.tokensOfElse otherwise, L t.location) :
    FaultsIn L (Stmt.execElse host otherwise) := by
  cases otherwise with
  | none => exact faultsIn_pure _
  | some s => exact s.faultsIn_exec host h

theorem Stmt.faultsIn_execBranches (host : Host) {otherwise : Action Flow}
    (conditions : List Expr) (bodies : List Stmt)
    (hconditions : ∀ t ∈ Expr.tokensAll conditions, L t.location)
    (hbodies : ∀ t ∈ Stmt.tokensAll bodies, L t.location) (ho : FaultsIn L otherwise) :
    FaultsIn L (Stmt.execBranches host otherwise conditions bodies) := by
  cases conditions with
  | nil => cases bodies <;> exact ho
  | cons condition conditions =>
    cases bodies with
    | nil => exact ho
    | cons body bodies =>
      obtain ⟨hcondition, hconditions⟩ := List.forall_mem_append.mp hconditions
      obtain ⟨hbody, hbodies⟩ := List.forall_mem_append.mp hbodies
      have hown := hcondition _ condition.token_mem_tokens
      refine (condition.faultsIn_eval host hcondition).bind fun value => ?_
      refine (faultsIn_demand hown value).bind fun value => ?_
      have hrest := Stmt.faultsIn_execBranches host conditions bodies hconditions hbodies ho
      exact (body.faultsIn_exec host hbody).ite hrest

theorem Arm.faultsIn_handle (host : Host) (code : ErrorCode) {unhandled : Action Flow}
    (arms : List Arm) (h : ∀ t ∈ Arm.tokensAll arms, L t.location) (hu : FaultsIn L unhandled) :
    FaultsIn L (Arm.handle host code unhandled arms) := by
  cases arms with
  | nil => exact hu
  | cons arm arms =>
    obtain ⟨binding, filters, body, t⟩ := arm
    obtain ⟨_, hparts⟩ := List.forall_mem_cons.mp h
    obtain ⟨hfilters, hparts⟩ := List.forall_mem_append.mp hparts
    obtain ⟨hbody, harms⟩ := List.forall_mem_append.mp hparts
    refine ((Expr.faultsIn_matchesAny host code filters hfilters).anyOr filters).bind fun _ => ?_
    refine FaultsIn.ite ?_ (Arm.faultsIn_handle host code arms harms hu)
    have hb := body.faultsIn_exec host hbody
    cases binding with
    | none => exact hb
    | some name => exact (faultsIn_define name _).bind fun _ => hb

end

end MooScript
