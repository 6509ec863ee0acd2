import Mathlib
import MooScript.Interpreter
import MooScript.Proofs.Syntax.Tokens
import MooScript.Proofs.Table

/-! What expressions evaluate to where errors go by their names. -/
namespace MooScript

namespace Environment

/-- Every error goes by its name. -/
def NamesErrors (e : Environment) : Prop :=
  ∀ code : ErrorCode, e.get? code.name = some (.error code)

theorem nodup_constants : (constants.map Prod.fst).Nodup := by
  decide +kernel

theorem namesErrors_of_globals {globals : Scope}
    (h : ∀ code : ErrorCode, globals.get? code.name = some (.error code)) :
    NamesErrors ⟨[], globals⟩ := by
  intro code
  rw [get?, List.nil_append, List.findSome?_cons, h code]

theorem namesErrors_initial : initial.NamesErrors := by
  refine namesErrors_of_globals fun code => (Table.get?_ofList nodup_constants).mpr ?_
  have hcode : code ∈ ErrorCode.all := by cases code <;> decide
  exact List.mem_append_right _ (List.mem_map_of_mem hcode)

end Environment

theorem Action.run_bind_of_eq {α β : Type} {act : Action α} {k : α → Action β} {m m' : Machine}
    {a : α} (h : act.run m = (.ok a, m')) : (act >>= k).run m = (k a).run m' := by
  rw [run_bind, h]
  rfl

/-- Whatever the tokens in it, where every error goes by its name the expression has the value and
changes nothing. -/
def Expr.Evaluates (e : Expr) (value : Value) : Prop :=
  ∀ e' : Expr, e'.bare = e.bare → ∀ host m, m.environment.NamesErrors →
    (e'.eval host).run m = (.ok value, m)

def Expr.EvaluateAll (es : List Expr) (values : List Value) : Prop :=
  ∀ es' : List Expr, bareAll es' = bareAll es → ∀ host m, m.environment.NamesErrors →
    (evalAll host es').run m = (.ok values, m)

namespace Expr

variable {e : Expr} {es : List Expr} {value : Value} {values : List Value} {t : Token}

theorem evaluates_literal : (literal value t).Evaluates value := by
  intro e' hbare host m _
  cases e' with
  | literal value' t' =>
    cases hbare
    rw [eval]
    rfl
  | _ => cases hbare

theorem evaluates_name (code : ErrorCode) : (identifier code.name t).Evaluates (.error code) := by
  intro e' hbare host m hm
  cases e' with
  | identifier name t' =>
    cases hbare
    have hlookup : ((identifier code.name t').eval host).run m =
        (.ok ((m.environment.get? code.name).getD (.error .varNotFound)), m) := by
      rw [eval]
      rfl
    rw [hlookup, hm code]
    rfl
  | _ => cases hbare

theorem Evaluates.neg (h : e.Evaluates value) (hvalue : value.isError = false) :
    (unary .neg e t).Evaluates (value.applyUnary .neg) := by
  intro e' hbare host m hm
  cases e' with
  | unary op operand t' =>
    obtain ⟨rfl, hoperand, _⟩ := unary.inj hbare
    have hdemand : (Action.demand operand.token value).run m = (.ok value, m) := by
      cases value with
      | error code => cases hvalue
      | _ => rfl
    rw [eval, Action.run_bind_of_eq (h operand hoperand host m hm), Action.run_bind_of_eq hdemand]
    rfl
  | _ => cases hbare

theorem EvaluateAll.list (h : EvaluateAll es values) : (list es t).Evaluates (.list values) := by
  intro e' hbare host m hm
  cases e' with
  | list es' t' =>
    rw [eval, Action.run_bind_of_eq (h es' (list.inj hbare).1 host m hm)]
    rfl
  | _ => cases hbare

theorem evaluateAll_nil : EvaluateAll [] [] := by
  intro es' hbare host m _
  cases es' with
  | nil =>
    rw [evalAll]
    rfl
  | cons => cases hbare

theorem Evaluates.cons (h : e.Evaluates value) (hes : EvaluateAll es values) :
    EvaluateAll (e :: es) (value :: values) := by
  intro es' hbare host m hm
  cases es' with
  | nil => cases hbare
  | cons e' es' =>
    obtain ⟨hbare, hbareAll⟩ := List.cons.inj hbare
    rw [evalAll, Action.run_bind_of_eq (h e' hbare host m hm),
      Action.run_bind_of_eq (hes es' hbareAll host m hm)]
    rfl

end Expr
end MooScript
