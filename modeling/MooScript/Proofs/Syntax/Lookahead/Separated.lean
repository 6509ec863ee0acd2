import MooScript.Proofs.Syntax.Lookahead.Indifferent
import MooScript.Proofs.Syntax.Lookahead.Statement

/-! Statements end alike in front of the end of the input and in front of a semicolon, apart from
the semicolon itself, which may be taken with them. -/
namespace MooScript.Grammar

open Reading Run

variable {α β : Type} {p q : Kind → Bool} {F F' : Run α} {a : α} {finish t : Token}
  {s : Stmt} {ts us used mid rest left : List Token}

def isSemicolon (k : Kind) : Bool := k == .symbol .semicolon

theorem endsExpr_of_isSemicolon (k : Kind) (h : isSemicolon k = true) : endsExpr k = true := by
  rw [beq_iff_eq.mp h]
  rfl

/-- One semicolon may have been left out. -/
def Skipped (us left : List Token) : Prop :=
  left = us ∨ ∃ t, t.kind = .symbol .semicolon ∧ us = t :: left

theorem Skipped.length_le (h : Skipped us left) : left.length ≤ us.length := by
  obtain rfl | ⟨t, _, rfl⟩ := h
  · exact Nat.le_refl _
  · exact Nat.le_succ _

theorem exists_skip (finish : Token) (us : List Token) :
    ∃ left, Skipped us left ∧ skipRun finish us = .ok ((), left) := by
  cases us with
  | nil => exact ⟨[], .inl rfl, rfl⟩
  | cons t us =>
    by_cases ht : t.kind = .symbol .semicolon
    · exact ⟨us, .inr ⟨t, ht, rfl⟩, (yields_skip ht).outcome⟩
    · exact ⟨t :: us, .inl rfl, skip_opens.cons finish t us ht⟩

/-! ### Statements -/

/-- The tokens are read as `a` in front of the end and of every semicolon, if that is what they
stand in front of; the semicolon may be taken with them, but is not the last of them. -/
structure Separated (F : Run α) (used : List Token) (a : α) (mid rest : List Token) : Prop where
  skipped : Skipped mid rest
  unclosed : Unclosed used
  reads : Ends isSemicolon mid → ∀ finish us, Ends isSemicolon us →
    ∃ left, Skipped us left ∧ F finish (used ++ us) = .ok (a, left)

theorem Delimited.separated (h : Delimited anyKind F used a rest) : Separated F used a rest rest :=
  ⟨.inl rfl, h.unclosed, fun _ finish us _ =>
    ⟨us, .inl rfl, h.reads ends_anyKind finish us ends_anyKind⟩⟩

theorem Separated.cons (ht : t.kind ≠ .symbol .semicolon)
    (h : Separated (F.behind [t]) used a mid rest) : Separated F (t :: used) a mid rest :=
  ⟨h.skipped, h.unclosed.cons ht, h.reads⟩

theorem Separated.peek (heq : ∀ finish rest, F finish (t :: rest) = F' finish (t :: rest))
    (h : Separated F' (t :: used) a mid rest) : Separated F (t :: used) a mid rest := by
  refine ⟨h.skipped, h.unclosed, fun hmid finish us hus => ?_⟩
  rw [List.cons_append, heq]
  exact h.reads hmid finish us hus

/-- What a semicolon may follow. -/
theorem separated_skip {f : α → β} {b : β} (hF : Indifferent p F ts)
    (hp : ∀ k, isSemicolon k = true → p k = true)
    (h : F.bind (fun a => skipRun.map fun _ => f a) finish ts = .ok (b, rest)) :
    ∃ used mid a, ts = used ++ mid ∧ F finish ts = .ok (a, mid) ∧
      Separated (F.bind fun a => skipRun.map fun _ => f a) used b mid rest := by
  obtain ⟨a, mid, ha, hb⟩ := bind_eq_ok_iff.mp h
  obtain ⟨_, hrest, rfl⟩ := map_eq_ok_iff.mp hb
  obtain ⟨used, hts, hused⟩ := hF ha
  obtain ⟨left, hleft, hskip⟩ := exists_skip finish mid
  cases hrest.symm.trans hskip
  refine ⟨used, mid, a, hts, ha, hleft, hused.unclosed, fun hmid finish us hus => ?_⟩
  obtain ⟨left, hleft, hskip⟩ := exists_skip finish us
  refine ⟨left, hleft, ?_⟩
  rw [bind_of_ok (hused.reads (hmid.mono hp) finish us (hus.mono hp)), map_of_ok hskip]

theorem returned_indifferent : Indifferent isSemicolon (ofTail (returned · t)) ts := by
  have hends : ∀ finish us, Ends isSemicolon us →
      ofTail (returned · t) finish us = .ok (zero t, us) := by
    intro finish us hus
    refine returned_of_end ?_
    cases us with
    | nil => exact .inr rfl
    | cons t' us => exact .inl (hus t' rfl)
  cases hend : startsWith (.symbol .semicolon) ts || atBlockEnd ts with
  | true =>
    exact .kept (fun finish => returned_of_end (Bool.or_eq_true_iff.mp hend)) hends
  | false =>
    cases ts with
    | nil => cases hend
    | cons t' ts =>
      refine .peek_cons (takes_ofRule expr) (fun finish rest => ?_)
        ((expr_indifferent (t' :: ts)).mono endsExpr_of_isSemicolon)
      have hrest : (startsWith (.symbol .semicolon) (t' :: rest) ||
        atBlockEnd (t' :: rest)) = false := hend
      rw [ofTail, returned, hrest]
      exact outcome_widen _

theorem if_indifferent (ht : t.kind = .keyword .if_) :
    Indifferent anyKind (behind [t] (ofRule stmt)) ts := by
  rw [stmt_run_if ht]
  have hend : ∀ (conditions : List Expr) (bodies : List Stmt) (otherwise : Option Stmt), Takes 1
      ((ofRule (expect · (.keyword .endIf))).map fun _ =>
        Stmt.if_ conditions bodies otherwise t) :=
    fun _ _ _ => (takes_ofRule _).map
  have helse : ∀ (conditions : List Expr) (bodies : List Stmt), Takes 1 _ :=
    fun conditions bodies => (takes_ofTail elseTail).bind (hend conditions bodies)
  have hbranches : ∀ (c : Expr) (body : Stmt), Takes 1 _ := fun c body =>
    (takes_ofTail branchTail).bind fun branches =>
      helse (c :: branches.map Prod.fst) (body :: branches.map Prod.snd)
  have hbody : ∀ c : Expr, Takes 1 _ := fun c => (takes_ofTail block).bind (hbranches c)
  refine .bind_of_takes (fun _ => condition_decided) hbody fun _ c rest₁ _ => ?_
  refine .bind_of_takes (fun _ => block_decided) (hbranches c) fun _ body rest₂ _ => ?_
  refine .bind_of_takes (fun _ => branchTail_decided (blocksDecidedBelow _) _ (Nat.le_refl _))
    (fun branches => helse _ _) fun _ branches rest₃ _ => ?_
  refine .bind_of_takes (fun _ => elseTail_decided (blocksDecidedBelow _) (Nat.le_refl _))
    (hend _ _) fun _ otherwise _ _ => ?_
  exact (Indifferent.expect (by decide)).map _

theorem for_indifferent (ht : t.kind = .keyword .for_) :
    Indifferent anyKind (behind [t] (ofRule stmt)) ts := by
  rw [stmt_run_for ht]
  refine .expect_bind (by decide) rfl fun var _ _ => ?_
  refine .expect_bind (by decide) rfl fun _ _ _ => ?_
  have hend : ∀ (items : Expr) (body : Stmt), Takes 1
      ((ofRule (expect · (.keyword .endFor))).map fun _ => Stmt.for_ var.text items body t) :=
    fun _ _ => (takes_ofRule _).map
  refine .bind_of_takes (fun _ => iterable_decided)
    (fun items => (takes_ofTail block).bind (hend items)) fun _ items rest _ => ?_
  refine .bind_of_takes (fun _ => block_decided) (hend items) fun _ body _ _ => ?_
  exact (Indifferent.expect (by decide)).map _

theorem try_indifferent (ht : t.kind = .keyword .try_) :
    Indifferent anyKind (behind [t] (ofRule stmt)) ts := by
  rw [stmt_run_try ht]
  refine .bind_of_takes (fun _ => block_decided)
    (fun _ => (takes_ofTail armTail).bind takes_armsEnd) fun _ body rest _ => ?_
  refine .bind_of_takes (fun _ => armTail_decided (blocksDecidedBelow _) _ (Nat.le_refl _))
    takes_armsEnd fun _ arms rest _ => ?_
  by_cases harms : arms = []
  · rw [harms]
    exact .failed fun finish => ⟨_, rfl⟩
  · rw [armsEnd_of_ne_nil harms]
    exact (Indifferent.expect (by decide)).map _

theorem exprStmt_separated (h : ofRule exprStmt finish ts = .ok (s, rest)) :
    ∃ t used mid, ts = t :: used ++ mid ∧ Separated (ofRule exprStmt) (t :: used) s mid rest := by
  rw [exprStmt_run] at h ⊢
  obtain ⟨used, mid, e, hts, he, hused⟩ :=
    separated_skip (expr_indifferent ts) endsExpr_of_isSemicolon h
  cases used with
  | nil =>
    have hlength := takes_ofRule expr he
    rw [hts, List.nil_append] at hlength
    exact absurd hlength (Nat.not_succ_le_self _)
  | cons t used => exact ⟨t, used, mid, hts, hused⟩

/-- A statement, apart from the semicolon behind it, is read in front of the end as it is in front
of a semicolon. -/
theorem stmt_separated (h : ofRule stmt finish ts = .ok (s, rest)) :
    ∃ t used mid, ts = t :: used ++ mid ∧ Separated (ofRule stmt) (t :: used) s mid rest := by
  cases ts with
  | nil => exact absurd (takes_ofRule stmt h) (Nat.not_succ_le_zero _)
  | cons t ts =>
    have hexpr (heq : ∀ finish rest, ofRule stmt finish (t :: rest) =
        ofRule exprStmt finish (t :: rest)) :
        ∃ t' used mid, t :: ts = t' :: used ++ mid ∧
          Separated (ofRule stmt) (t' :: used) s mid rest := by
      rw [heq] at h
      obtain ⟨t', used, mid, hts, hused⟩ := exprStmt_separated h
      obtain ⟨rfl, _⟩ := List.cons_eq_cons.mp hts
      exact ⟨t, used, mid, hts, hused.peek heq⟩
    have hcompound (hkind : t.kind ≠ .symbol .semicolon)
        (hrun : Indifferent anyKind (behind [t] (ofRule stmt)) ts) :
        ∃ t' used mid, t :: ts = t' :: used ++ mid ∧
          Separated (ofRule stmt) (t' :: used) s mid rest := by
      obtain ⟨used, rfl, hused⟩ := hrun h
      exact ⟨t, used, rest, rfl, hused.separated.cons hkind⟩
    cases hkind : t.kind with
    | keyword k =>
      have hne : t.kind ≠ .symbol .semicolon := by
        rw [hkind]
        simp
      cases k with
      | return_ =>
        have hbehind : behind [t] (ofRule stmt) finish ts = .ok (s, rest) := h
        rw [stmt_run_return hkind] at hbehind
        obtain ⟨used, mid, e, rfl, _, hused⟩ :=
          separated_skip returned_indifferent (fun _ h => h) hbehind
        rw [← stmt_run_return hkind] at hused
        exact ⟨t, used, mid, rfl, hused.cons hne⟩
      | if_ => exact hcompound hne (if_indifferent hkind)
      | for_ => exact hcompound hne (for_indifferent hkind)
      | try_ => exact hcompound hne (try_indifferent hkind)
      | _ =>
        refine hexpr fun finish rest => ?_
        rw [ofRule, stmt, hkind]
        rfl
    | _ =>
      refine hexpr fun finish rest => ?_
      rw [ofRule, stmt, hkind]
      rfl

theorem Separated.exists_left {x : Token} (h : Separated (ofRule stmt) used s (x :: mid) rest)
    (hs : ofRule stmt finish (used ++ x :: mid) = .ok (s, rest)) (finish' : Token)
    (us : List Token) :
    ∃ left, Skipped (x :: us) left ∧ ofRule stmt finish' (used ++ x :: us) = .ok (s, left) := by
  by_cases hx : x.kind = .symbol .semicolon
  · have hends : ∀ us, Ends isSemicolon (x :: us) := fun us => ends_cons (beq_iff_eq.mpr hx)
    exact h.reads (hends mid) finish' (x :: us) (hends us)
  · obtain rfl | ⟨x', hx', heq⟩ := h.skipped
    · have hdecided : Decided endsBlock (ofRule stmt) finish (used ++ x :: mid) :=
        stmt_decided (blocksDecidedBelow _) (Nat.le_refl _)
      obtain ⟨used', hused', haccepts⟩ := hdecided.accepts hs
      obtain rfl := List.append_cancel_right hused'
      exact ⟨x :: us, .inl rfl, haccepts.same x rfl finish' us⟩
    · obtain ⟨rfl, _⟩ := List.cons_eq_cons.mp heq
      exact absurd hx' hx

end MooScript.Grammar
