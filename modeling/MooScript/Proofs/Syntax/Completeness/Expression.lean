import MooScript.Proofs.Syntax.Completeness.Node

/-! Every conformant expression is read back from its words. -/
namespace MooScript.Expr

open Grammar

variable {finish : Token}

theorem tier_pos_of_name? {e : Expr} (h : e.name?.isSome = true) : 0 < e.tier := by
  cases e with
  | identifier => exact Nat.zero_lt_succ 8
  | _ => cases h

theorem reads_atom {e : Expr} (he : e.Conformant) (htier : e.tier = 9) (h : Parses finish 9 e) :
    Reads finish e :=
  reads_of_not_groupsLeft he (by rw [htier]; rfl) (htier ▸ h)

mutual

theorem reads (e : Expr) (he : e.Conformant) : Reads finish e := by
  cases e with
  | binary op left right t =>
    by_cases hop : 0 < op.tier
    · obtain ⟨hleft, hright, hcleft, hcright⟩ := (conformant_binary hop).mp he
      obtain ⟨level, hlevel⟩ := BinaryOp.exists_level hop
      have hgroups : groupsLeft op.tier = true := hlevel ▸ groupsLeft_tier level
      have hcontinues : Continues finish op.tier (.binary op left right t) :=
        continues_binary hlevel ((left.reads hcleft op.tier hleft).2 (.inr hgroups))
          (right.reads hcright (op.tier + 1) hright).1
      exact reads_of_top he hcontinues.parses fun _ => hcontinues
    · cases op with
      | assign =>
        have ⟨hname, hcleft, hcright⟩ := he
        refine reads_of_not_groupsLeft he rfl (parses_assign hname ?_ ?_)
        · exact (left.reads hcleft 0 (Nat.zero_le _)).2 (.inl (tier_pos_of_name? hname))
        · exact (right.reads hcright 0 (Nat.zero_le _)).1
      | _ => exact absurd (by decide) hop
  | unary op operand t =>
    exact reads_of_not_groupsLeft he rfl (parses_unary (operand.reads he.2 7 he.1).1)
  | grouping inner t =>
    exact reads_atom he rfl (isCallee_grouping (inner.reads he 0 (Nat.zero_le _)).1).parses
  | literal value t => exact reads_atom he rfl (parses_literal he)
  | identifier name t => exact reads_atom he rfl isCallee_identifier.parses
  | list elements t => exact reads_atom he rfl (parses_list (parseAll elements he))
  | range first last t =>
    refine reads_atom he rfl fun ts rest hs _ => yields_range ?_ ?_ hs
    · exact (first.reads he.1 0 (Nat.zero_le _)).1
    · exact (last.reads he.2 0 (Nat.zero_le _)).1
  | property object name t =>
    cases hsystem : object.isSystem with
    | true =>
      exact reads_atom he (by rw [tier, hsystem]; rfl) (parses_systemProperty hsystem)
    | false =>
      have htier : (Expr.property object name t).tier = 6 := by rw [tier, hsystem]; rfl
      obtain ⟨hobject, hcobject⟩ := he.resolve_left (ne_true_of_eq_false hsystem)
      have hcontinues : Continues finish 6 (.property object name t) :=
        continues_property hsystem ((object.reads hcobject 6 hobject).2 (.inr rfl))
      exact reads_of_top he (htier ▸ hcontinues.parses) fun _ => htier ▸ hcontinues
  | call callee args t =>
    have ⟨hcallee, hccallee, hargs⟩ := he
    refine reads_atom he rfl (IsCallee.parses_call ?_ (parseAll args hargs))
    cases callee with
    | identifier name t' => exact isCallee_identifier
    | grouping inner t' => exact isCallee_grouping (inner.reads hccallee 0 (Nat.zero_le _)).1
    | _ => cases hcallee
  | verbCall object verb args t =>
    have hargs := parseAll args he.2
    cases hsystem : object.isSystem with
    | true =>
      exact reads_atom he (by rw [tier, hsystem]; rfl) (parses_systemCall hsystem hargs)
    | false =>
      have htier : (Expr.verbCall object verb args t).tier = 8 := by rw [tier, hsystem]; rfl
      obtain ⟨hobject, hcobject⟩ := he.1.resolve_left (ne_true_of_eq_false hsystem)
      have hcontinues : Continues finish 8 (.verbCall object verb args t) :=
        continues_verbCall hsystem ((object.reads hcobject 8 hobject).2 (.inr rfl)) hargs
      exact reads_of_top he (htier ▸ hcontinues.parses) fun _ => htier ▸ hcontinues
  | recover body filters alternative t =>
    exact reads_atom he rfl (parses_recover (body.reads he.1 0 (Nat.zero_le _)).1
      (parseAll filters he.2.1) (alternative.reads he.2.2 0 (Nat.zero_le _)).1)

theorem parseAll (es : List Expr) (hes : AllConformant es) : ParseAll finish es := by
  cases es with
  | nil => exact List.forall_mem_nil _
  | cons e es =>
    exact List.forall_mem_cons.mpr
      ⟨⟨hes.1, (e.reads hes.1 0 (Nat.zero_le _)).1⟩, parseAll es hes.2⟩

end

/-- An expression that nothing carries on is read back whole. -/
theorem parses (e : Expr) (he : e.Conformant) : Parses finish 0 e :=
  (e.reads he 0 (Nat.zero_le _)).1

end MooScript.Expr
