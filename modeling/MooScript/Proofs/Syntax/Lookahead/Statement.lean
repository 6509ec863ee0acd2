import MooScript.Proofs.Syntax.Completeness.Statement
import MooScript.Proofs.Syntax.Lookahead.Expression

/-! The rules for statements look one token ahead. -/
namespace MooScript.Grammar

open Reading Run

variable {finish t : Token} {n : Nat} {ts : List Token}

/-- Keywords that close a statement. -/
def closesStmt : Kind → Bool
  | .keyword .endIf | .keyword .endFor | .keyword .endTry => true
  | _ => false

theorem endsBlock_of_closesStmt (k : Kind) (h : closesStmt k = true) : endsBlock k = true := by
  cases k with
  | keyword k => cases k <;> first | rfl | cases h
  | _ => cases h

theorem endsExpr_of_endsBlock (k : Kind) (h : endsBlock k = true) : endsExpr k = true := by
  cases k with
  | keyword k => rfl
  | _ => cases h

theorem Ends.atBlockEnd (h : Ends endsBlock ts) : atBlockEnd ts = true := by
  cases ts with
  | nil => rfl
  | cons t ts => exact h t rfl

section Options

abbrev skipRun : Run Unit := ofTail fun _ => skip (.symbol .semicolon)

abbrev skipAllRun : Run Unit := ofTail fun _ => skipSemicolons

abbrev bindingRun : Run (Option String) := ofTail fun _ => bindingName

theorem skip_opens : Opens (.symbol .semicolon) skipRun () := by
  refine ⟨fun _ => rfl, fun finish t rest ht => ?_⟩
  rw [skipRun, ofTail, skip, if_neg ht]
  rfl

theorem skipAll_opens : Opens (.symbol .semicolon) skipAllRun () := by
  refine ⟨fun _ => rfl, fun finish t rest ht => ?_⟩
  rw [skipAllRun, ofTail, skipSemicolons, if_neg ht]
  rfl

theorem binding_opens : Opens .identifier bindingRun none := by
  refine ⟨fun _ => rfl, fun finish t rest ht => ?_⟩
  rw [bindingRun, ofTail, bindingName, if_neg ht]
  rfl

theorem skip_decided : Decided endsBlock skipRun finish ts := by
  refine skip_opens.decided rfl fun t rest _ ht => ?_
  have hrun : behind [t] skipRun = fun _ rest => .ok ((), rest) := by
    funext finish rest
    exact (yields_skip ht).outcome
  rw [hrun]
  exact .done

theorem binding_decided : Decided (· != .identifier) bindingRun finish ts := by
  refine binding_opens.decided rfl fun t rest _ ht => ?_
  have hrun : behind [t] bindingRun = fun _ rest => .ok (some t.text, rest) := by
    funext finish rest
    rw [behind, List.singleton_append, bindingRun, ofTail, bindingName, if_pos ht]
    rfl
  rw [hrun]
  exact .done

theorem skipAll_decided (ts : List Token) : Decided endsBlock skipAllRun finish ts := by
  refine skipAll_opens.decided rfl fun t rest hts ht => ?_
  have hrun : behind [t] skipAllRun = skipAllRun := by
    funext finish rest
    rw [behind, List.singleton_append, skipAllRun, ofTail, skipSemicolons, if_pos ht]
    exact outcome_widen _
  rw [hrun]
  exact skipAll_decided rest
termination_by ts.length
decreasing_by
  subst_vars
  exact Nat.lt_succ_self _

end Options

section Parts

theorem exprStmt_run : ofRule exprStmt =
    (ofRule expr).bind fun e => skipRun.map fun _ => .expr e := by
  funext finish ts
  rw [ofRule, exprStmt, outcome_andThen]
  simp only [outcome_map]
  rfl

theorem exprStmt_decided : Decided endsBlock (.ofRule exprStmt) finish ts := by
  rw [exprStmt_run]
  exact expr_decided.bind (fun _ _ _ => skip_decided.map _)
    (fun _ _ => (skip_opens.ready rfl).map _) fun _ h => h.mono endsExpr_of_endsBlock

theorem condition_run : ofRule condition =
    (ofRule (expect · (.symbol .leftParen))).bind fun _ => (ofRule expr).bind fun e =>
      (ofRule (expect · (.symbol .rightParen))).map fun _ => e := by
  funext finish ts
  rw [ofRule, condition, outcome_andThen]
  simp only [outcome_andThen, outcome_map, outcome_widen]
  rfl

theorem condition_close_ready (e : Expr) :
    Ready anyKind ((ofRule (expect · (.symbol .rightParen))).map fun _ => e)
      [(Kind.symbol .rightParen).token] :=
  (expect_ready rfl).map _

theorem condition_ready : Ready anyKind (.ofRule condition)
    [(Kind.symbol .leftParen).token, zeroToken, (Kind.symbol .rightParen).token] := by
  rw [condition_run]
  exact .expect_bind rfl fun _ =>
    expr_ready.bind condition_close_ready fun _ _ => ends_cons rfl

theorem condition_decided : Decided anyKind (.ofRule condition) finish ts := by
  rw [condition_run]
  refine .expect_bind rfl
    (fun _ => expr_ready.bind condition_close_ready fun _ _ => ends_cons rfl) fun _ rest _ => ?_
  exact expr_decided.bind (fun _ _ _ => (expect_decided rfl).map _)
    (fun e _ => condition_close_ready e) fun _ _ => ends_cons rfl

theorem iterable_ready : Ready anyKind (.ofRule iterable)
    [(Kind.symbol .leftParen).token, zeroToken, (Kind.symbol .rightParen).token] := by
  refine .ofRule ⟨condition_ready.voiced, fun finish rest h => ?_⟩
  obtain ⟨e, he⟩ := condition_ready.reads finish rest h
  refine ⟨e, ?_⟩
  rw [← he, ofRule, List.cons_append, iterable, if_neg (by decide), if_pos (Kind.token_kind _)]
  rfl

theorem iterable_decided : Decided anyKind (.ofRule iterable) finish ts := by
  cases ts with
  | nil => exact .ended iterable_ready.toFinishes .iterable rfl
  | cons t ts =>
    by_cases hbracket : t.kind = .symbol .leftBracket
    · have hrange : Decided anyKind (.ofRule atom) finish (t :: ts) :=
        range_decided (decidedBelow (ts.length + 1)) hbracket (Nat.lt_succ_self ts.length)
      refine .peek_cons iterable_ready (fun finish rest => ?_) hrange
      rw [ofRule, iterable, if_pos hbracket]
      rfl
    by_cases hparen : t.kind = .symbol .leftParen
    · refine .peek_cons iterable_ready (fun finish rest => ?_) condition_decided
      rw [ofRule, iterable, if_neg hbracket, if_pos hparen]
      rfl
    · refine .blamed iterable_ready.toFinishes (.inl ⟨.iterable, rfl⟩) fun finish rest => ?_
      rw [ofRule, iterable, if_neg hbracket, if_neg hparen]
      rfl

theorem returned_of_end {rest : List Token}
    (h : startsWith (.symbol .semicolon) rest = true ∨ atBlockEnd rest = true) :
    ofTail (returned · t) finish rest = .ok (zero t, rest) := by
  rw [ofTail, returned, if_pos (Bool.or_eq_true_iff.mpr h)]
  rfl

theorem returned_ready : Ready endsBlock (.ofTail (returned · t)) [] :=
  .ofTail <| .keep fun _ _ h => ⟨zero t, returned_of_end (.inr h.atBlockEnd)⟩

theorem returned_decided : Decided endsBlock (.ofTail (returned · t)) finish ts := by
  have hready := returned_ready (t := t)
  cases ts with
  | nil => exact .kept_nil hready.toFinishes (returned_of_end (.inr rfl))
  | cons t' ts =>
    by_cases hend : t'.kind = .symbol .semicolon ∨ endsBlock t'.kind = true
    · refine .kept hready.toFinishes fun finish rest => returned_of_end ?_
      exact hend.imp_left fun h => beq_iff_eq.mpr h
    · have hstarts : ∀ rest, (startsWith (.symbol .semicolon) (t' :: rest) ||
          atBlockEnd (t' :: rest)) = false := by
        intro rest
        obtain ⟨hsemicolon, hends⟩ := not_or.mp hend
        rw [startsWith, beq_eq_false_iff_ne.mpr hsemicolon, atBlockEnd,
          eq_false_of_ne_true hends, Bool.false_or]
      refine .peek_cons hready (fun finish rest => ?_)
        (expr_decided.mono endsExpr_of_endsBlock)
      rw [ofTail, returned, hstarts rest]
      exact outcome_widen _

end Parts

section Compound

theorem statements_ready : Ready endsBlock (.ofTail statements) [] := by
  refine .ofTail (.keep fun finish rest h => ?_)
  have hreads : StatementsRead finish [] := statements_nil
  obtain ⟨ss, _, hss⟩ := hreads rest rest .nil h.atBlockEnd
  exact ⟨ss, hss.outcome⟩

theorem block_run (finish : Token) (ts : List Token) :
    ofTail block finish ts = (ofTail statements finish ts).map fun p =>
      (.block (orZero (ts.headD finish) p.1), p.2) := by
  rw [ofTail, block, outcome_map]
  rfl

theorem block_ready : Ready endsBlock (.ofTail block) [] := by
  refine .ofTail (.keep fun finish rest h => ?_)
  obtain ⟨ss, hss⟩ := statements_ready.reads finish rest h
  refine ⟨.block (orZero (rest.headD finish) ss), ?_⟩
  rw [block_run]
  exact congrArg _ hss

theorem branchTail_opens : Opens (.keyword .elseIf) (ofTail branchTail) [] := by
  constructor
  · intro finish
    rw [ofTail, branchTail]
    rfl
  · intro finish t rest ht
    rw [ofTail, branchTail, if_neg ht]
    rfl

theorem elseTail_opens : Opens (.keyword .else_) (ofTail elseTail) none := by
  constructor
  · intro finish
    rw [ofTail, elseTail]
    rfl
  · intro finish t rest ht
    rw [ofTail, elseTail, if_neg ht]
    rfl

theorem armTail_opens : Opens (.keyword .except) (ofTail armTail) [] := by
  constructor
  · intro finish
    rw [ofTail, armTail]
    rfl
  · intro finish t rest ht
    rw [ofTail, armTail, if_neg ht]
    rfl

theorem branchTail_ready : Ready closesStmt (.ofTail branchTail) [] := branchTail_opens.ready rfl

theorem elseTail_ready : Ready closesStmt (.ofTail elseTail) [] := elseTail_opens.ready rfl

theorem armTail_ready : Ready closesStmt (.ofTail armTail) [] := armTail_opens.ready rfl

theorem branchTail_run (ht : t.kind = .keyword .elseIf) :
    behind [t] (ofTail branchTail) = (ofRule condition).bind fun c =>
      (ofTail block).bind fun body => (ofTail branchTail).map ((c, body) :: ·) := by
  funext finish ts
  rw [behind, List.singleton_append, ofTail, branchTail, if_pos ht, outcome_widen]
  dsimp only [List.length_cons]
  simp only [outcome_andThen, outcome_map, outcome_widen]
  rfl

theorem elseTail_run (ht : t.kind = .keyword .else_) :
    behind [t] (ofTail elseTail) = (ofTail block).map some := by
  funext finish ts
  rw [behind, List.singleton_append, ofTail, elseTail, if_pos ht]
  dsimp only [List.length_cons]
  simp only [outcome_map, outcome_widen]
  rfl

/-- A handler behind its filters, and the handlers behind it. -/
abbrev armBodyRun (t : Token) (binding : Option String) (filters : List Expr) : Run (List Arm) :=
  (ofTail block).bind fun body => (ofTail armTail).map (.mk binding filters body t :: ·)

/-- A handler behind the parenthesis that opens its filters. -/
abbrev armFiltersRun (t : Token) (binding : Option String) : Run (List Arm) :=
  (ofRule errorFilters).bind fun filters =>
    (ofRule (expect · (.symbol .rightParen))).bind fun _ => armBodyRun t binding filters

theorem armTail_run (ht : t.kind = .keyword .except) :
    behind [t] (ofTail armTail) = bindingRun.bind fun binding =>
      (ofRule (expect · (.symbol .leftParen))).bind fun _ => armFiltersRun t binding := by
  funext finish ts
  rw [behind, List.singleton_append, ofTail, armTail, if_pos ht, outcome_widen]
  dsimp only [List.length_cons]
  simp only [outcome_andThen, outcome_map, outcome_widen]
  rfl

theorem stmt_run_return (ht : t.kind = .keyword .return_) :
    behind [t] (ofRule stmt) = (ofTail (returned · t)).bind fun e =>
      skipRun.map fun _ => .return_ e t := by
  funext finish ts
  rw [behind, List.singleton_append, ofRule, stmt, ht]
  dsimp only [List.length_cons]
  simp only [outcome_andThen, outcome_map]
  rfl

theorem stmt_run_if (ht : t.kind = .keyword .if_) :
    behind [t] (ofRule stmt) = (ofRule condition).bind fun c => (ofTail block).bind fun body =>
      (ofTail branchTail).bind fun branches => (ofTail elseTail).bind fun otherwise =>
        (ofRule (expect · (.keyword .endIf))).map fun _ =>
          .if_ (c :: branches.map Prod.fst) (body :: branches.map Prod.snd) otherwise t := by
  funext finish ts
  rw [behind, List.singleton_append, ofRule, stmt, ht]
  dsimp only [List.length_cons]
  simp only [outcome_andThen, outcome_map, outcome_widen]
  rfl

theorem stmt_run_for (ht : t.kind = .keyword .for_) :
    behind [t] (ofRule stmt) = (ofRule (expect · .identifier)).bind fun var =>
      (ofRule (expect · (.keyword .in_))).bind fun _ => (ofRule iterable).bind fun items =>
        (ofTail block).bind fun body => (ofRule (expect · (.keyword .endFor))).map fun _ =>
          .for_ var.text items body t := by
  funext finish ts
  rw [behind, List.singleton_append, ofRule, stmt, ht]
  dsimp only [List.length_cons]
  simp only [outcome_andThen, outcome_map, outcome_widen]
  rfl

/-- How a statement with handlers ends, which has at least one. -/
def armsEnd (body : Stmt) (t : Token) (arms : List Arm) : Run Stmt := fun finish ts =>
  if arms.isEmpty then fail finish (.kind (.keyword .except)) ts
  else (ofRule (expect · (.keyword .endTry))).map (fun _ => .try_ body arms t) finish ts

theorem stmt_run_try (ht : t.kind = .keyword .try_) :
    behind [t] (ofRule stmt) = (ofTail block).bind fun body =>
      (ofTail armTail).bind (armsEnd body t) := by
  have hend : ∀ (body : Stmt) (arms : List Arm) (finish : Token) (rest : List Token),
      outcome (if arms.isEmpty then fail finish (.kind (.keyword .except)) rest
        else (expect finish (.keyword .endTry) rest).widen.map fun _ => Stmt.try_ body arms t) =
      armsEnd body t arms finish rest := by
    intro body arms finish rest
    rw [armsEnd]
    split
    · rfl
    · rw [outcome_map, outcome_widen]
      rfl
  funext finish ts
  rw [behind, List.singleton_append, ofRule, stmt, ht]
  dsimp only [List.length_cons]
  simp only [outcome_andThen, hend]
  rfl

end Compound

section Arm

theorem armBody_ready (t : Token) (binding : Option String) (filters : List Expr) :
    Ready closesStmt (armBodyRun t binding filters) [] :=
  block_ready.bind (fun _ => armTail_ready.map _) fun _ h => h.mono endsBlock_of_closesStmt

theorem armFilters_ready (t : Token) (binding : Option String) :
    Ready closesStmt (armFiltersRun t binding)
      [(Kind.keyword .any).token, (Kind.symbol .rightParen).token] :=
  errorFilters_ready.bind (fun filters => .expect_bind rfl fun _ => armBody_ready t binding filters)
    fun _ _ => ends_anyKind

/-- Behind its word, a handler of any error is all that is missing. -/
theorem arm_ready (ht : t.kind = .keyword .except) :
    Ready closesStmt (behind [t] (ofTail armTail)) [(Kind.symbol .leftParen).token,
      (Kind.keyword .any).token, (Kind.symbol .rightParen).token] := by
  rw [armTail_run ht]
  exact (binding_opens.ready (p := (· != .identifier)) rfl).bind
    (fun binding => .expect_bind rfl fun _ => armFilters_ready t binding) fun _ _ => ends_cons rfl

/-- Behind the word of a handler there is at least that one. -/
theorem arms_ne_nil {arms : List Arm} (ht : t.kind = .keyword .except)
    (h : (behind [t] (ofTail armTail)).Gives arms) : arms ≠ [] := by
  obtain ⟨finish, ts, rest, h⟩ := h
  rw [armTail_run ht] at h
  obtain ⟨binding, _, _, h⟩ := bind_eq_ok_iff.mp h
  obtain ⟨_, _, _, h⟩ := bind_eq_ok_iff.mp h
  obtain ⟨filters, _, _, h⟩ := bind_eq_ok_iff.mp h
  obtain ⟨_, _, _, h⟩ := bind_eq_ok_iff.mp h
  obtain ⟨body, _, _, h⟩ := bind_eq_ok_iff.mp h
  obtain ⟨arms', _, rfl⟩ := map_eq_ok_iff.mp h
  exact List.cons_ne_nil _ _

theorem armsEnd_of_ne_nil {body : Stmt} {arms : List Arm} (h : arms ≠ []) :
    armsEnd body t arms =
      (ofRule (expect · (.keyword .endTry))).map fun _ => .try_ body arms t := by
  funext finish ts
  rw [armsEnd, if_neg (mt List.isEmpty_iff.mp h)]

theorem armsEnd_ready {body : Stmt} {arms : List Arm} (h : arms ≠ []) :
    Ready anyKind (armsEnd body t arms) [(Kind.keyword .endTry).token] := by
  rw [armsEnd_of_ne_nil h]
  exact (expect_ready rfl).map _

theorem takes_armsEnd {body : Stmt} (arms : List Arm) : Takes 1 (armsEnd body t arms) := by
  by_cases harms : arms = []
  · intro finish ts s rest h
    rw [harms] at h
    cases h
  · rw [armsEnd_of_ne_nil harms]
    exact (takes_ofRule _).map

/-- What is missing of a statement that still has no handler. -/
theorem arms_ready (body : Stmt) (t : Token) :
    Ready anyKind ((ofTail armTail).bind (armsEnd body t)) ((Kind.keyword .except).token ::
      [(Kind.symbol .leftParen).token, (Kind.keyword .any).token, (Kind.symbol .rightParen).token,
        (Kind.keyword .endTry).token]) := by
  have htakes : Takes 1 ((ofTail armTail).bind (armsEnd body t)) := by
    intro finish ts s rest h
    exact (takes_ofTail armTail).bind takes_armsEnd h
  refine ⟨.cons rfl ?_, fun _ _ _ _ h => Nat.le_of_lt (htakes h), fun _ => htakes⟩
  exact (arm_ready rfl).toFinishes.bind
    (fun arms harms => (armsEnd_ready (arms_ne_nil rfl harms)).toFinishes) fun _ _ => ends_cons rfl

end Arm

theorem return_decided (ht : t.kind = .keyword .return_) :
    Decided endsBlock (.ofRule stmt) finish (t :: ts) := by
  refine .cons ?_
  rw [stmt_run_return ht]
  exact returned_decided.bind (fun _ _ _ => skip_decided.map _)
    (fun _ _ => (skip_opens.ready rfl).map _) fun _ h => h

theorem stmt_ready : Ready endsBlock (.ofRule stmt) [zeroToken] := by
  have hready : Ready endsBlock ((ofRule expr).bind fun e => skipRun.map fun _ => Stmt.expr e) _ :=
    expr_ready.bind (fun _ => (skip_opens.ready rfl).map _) fun _ h => h.mono endsExpr_of_endsBlock
  rw [← exprStmt_run] at hready
  refine .ofRule ⟨voiced_zeroToken, fun finish rest h => ?_⟩
  obtain ⟨s, hs⟩ := hready.reads finish rest h
  refine ⟨s, ?_⟩
  rw [← hs, ofRule, ofRule, List.singleton_append, stmt_eq_exprStmt rfl]
  rfl

/-- The statement about `block`, of lists of fewer than `n` tokens. -/
def BlocksDecidedBelow (finish : Token) (n : Nat) : Prop :=
  ∀ ts : List Token, ts.length < n → Decided endsBlock (.ofTail block) finish ts

section Decided

variable (hblock : BlocksDecidedBelow finish n)
include hblock

theorem block_bind_decided {β : Type} {q : Kind → Bool} {G : Stmt → Run β} {u : List Token}
    (hn : ts.length < n) (hready : ∀ body, Ready q (G body) u)
    (hends : ∀ rest, Ends q rest → Ends endsBlock (u ++ rest))
    (hG : ∀ body rest, rest.length ≤ ts.length → Decided q (G body) finish rest) :
    Decided q ((ofTail block).bind G) finish ts :=
  (hblock ts hn).bind (fun body rest h => hG body rest (takes_ofTail _ h))
    (fun body _ => hready body) hends

theorem branchTail_decided (ts : List Token) (hn : ts.length ≤ n) :
    Decided closesStmt (.ofTail branchTail) finish ts := by
  have hbody : ∀ c : Expr, Ready closesStmt ((ofTail block).bind fun body =>
      (ofTail branchTail).map ((c, body) :: ·)) _ := fun c =>
    block_ready.bind (fun _ => branchTail_ready.map _) fun _ h => h.mono endsBlock_of_closesStmt
  refine branchTail_opens.decided rfl fun t rest hts ht => ?_
  subst hts
  have hrest : rest.length < n := hn
  rw [branchTail_run ht]
  refine condition_decided.bind (fun c rest₁ h => ?_) (fun c _ => hbody c) fun _ _ => ends_anyKind
  have hrest₁ := takes_ofRule _ h
  refine block_bind_decided hblock (by omega) (fun _ => branchTail_ready.map _)
    (fun _ h => h.mono endsBlock_of_closesStmt) fun body rest₂ hrest₂ => ?_
  exact (branchTail_decided rest₂ (by omega)).map _
termination_by ts.length
decreasing_by
  subst_vars
  simp only [List.length_cons]
  omega

theorem elseTail_decided (hn : ts.length ≤ n) :
    Decided closesStmt (.ofTail elseTail) finish ts := by
  refine elseTail_opens.decided rfl fun t rest hts ht => ?_
  subst hts
  rw [elseTail_run ht]
  exact ((hblock rest hn).mono endsBlock_of_closesStmt).map _

theorem arm_decided_of_tail (ht : t.kind = .keyword .except) (hn : ts.length < n)
    (htail : ∀ rest : List Token, rest.length < ts.length →
      Decided closesStmt (.ofTail armTail) finish rest) :
    Decided closesStmt (behind [t] (ofTail armTail)) finish ts := by
  rw [armTail_run ht]
  refine binding_decided.bind (fun binding rest₁ h => ?_)
    (fun binding _ => .expect_bind rfl fun _ => armFilters_ready t binding) fun _ _ => ends_cons rfl
  have hrest₁ := takes_ofTail _ h
  refine .expect_bind rfl (fun _ => armFilters_ready t binding) fun _ rest₂ hrest₂ => ?_
  refine (errorFilters_decided (decidedBelow _) (Nat.lt_succ_self _)).bind
    (fun filters rest₃ h => ?_)
    (fun filters _ => .expect_bind rfl fun _ => armBody_ready t binding filters)
    fun _ _ => ends_cons rfl
  have hrest₃ := takes_ofRule _ h
  refine .expect_bind rfl (fun _ => armBody_ready t binding filters) fun _ rest₄ hrest₄ => ?_
  refine block_bind_decided hblock (by omega) (fun _ => armTail_ready.map _)
    (fun _ h => h.mono endsBlock_of_closesStmt) fun body rest₅ hrest₅ => ?_
  exact (htail rest₅ (by omega)).map _

theorem armTail_decided (ts : List Token) (hn : ts.length ≤ n) :
    Decided closesStmt (.ofTail armTail) finish ts := by
  refine armTail_opens.decided rfl fun t rest hts ht => ?_
  subst hts
  refine arm_decided_of_tail hblock ht hn fun rest' hlt => ?_
  exact armTail_decided rest' (Nat.le_of_lt (Nat.lt_trans hlt hn))
termination_by ts.length
decreasing_by
  subst_vars
  exact Nat.lt_succ_of_lt hlt

theorem arms_decided {body : Stmt} (hn : ts.length ≤ n) :
    Decided anyKind ((ofTail armTail).bind (armsEnd body t)) finish ts := by
  have hready := (arms_ready body t).toFinishes
  cases ts with
  | nil =>
    refine .ended hready (.kind (.keyword .except)) ?_
    rw [bind_of_ok (armTail_opens.nil finish)]
    rfl
  | cons t' ts =>
    by_cases ht : t'.kind = .keyword .except
    · refine .cons ?_
      change Decided anyKind ((behind [t'] (ofTail armTail)).bind (armsEnd body t)) finish ts
      refine (arm_decided_of_tail hblock ht hn fun rest hlt => ?_).bind (fun arms rest h => ?_)
        (fun arms harms => armsEnd_ready (arms_ne_nil ht harms)) fun _ _ => ends_cons rfl
      · exact armTail_decided hblock rest (Nat.le_of_lt (Nat.lt_trans hlt hn))
      · rw [armsEnd_of_ne_nil (arms_ne_nil ht ⟨_, _, _, h⟩)]
        exact (expect_decided rfl).map _
    · refine .blamed hready (.inl ⟨.kind (.keyword .except), rfl⟩) fun finish rest => ?_
      rw [bind_of_ok (armTail_opens.cons finish t' rest ht)]
      rfl

theorem if_decided (ht : t.kind = .keyword .if_) (hn : ts.length < n) :
    Decided anyKind (.ofRule stmt) finish (t :: ts) := by
  have hend : ∀ (conditions : List Expr) (bodies : List Stmt) (otherwise : Option Stmt),
      Ready anyKind ((ofRule (expect · (.keyword .endIf))).map fun _ =>
        Stmt.if_ conditions bodies otherwise t) _ :=
    fun conditions bodies otherwise => (expect_ready rfl).map _
  have helse : ∀ (conditions : List Expr) (bodies : List Stmt), Ready anyKind _ _ :=
    fun conditions bodies =>
      elseTail_ready.bind (hend conditions bodies) fun _ _ => ends_cons rfl
  have hbranches : ∀ (c : Expr) (body : Stmt), Ready anyKind _ _ := fun c body =>
    branchTail_ready.bind
      (fun branches => helse (c :: branches.map Prod.fst) (body :: branches.map Prod.snd))
      fun _ _ => ends_cons rfl
  have hbody : ∀ c : Expr, Ready anyKind _ _ := fun c =>
    block_ready.bind (hbranches c) fun _ _ => ends_cons rfl
  refine .cons ?_
  rw [stmt_run_if ht]
  refine condition_decided.bind (fun c rest₁ h => ?_) (fun c _ => hbody c) fun _ _ => ends_anyKind
  have hrest₁ := takes_ofRule _ h
  refine block_bind_decided hblock (by omega) (hbranches c) (fun _ _ => ends_cons rfl)
    fun body rest₂ hrest₂ => ?_
  refine (branchTail_decided hblock rest₂ (by omega)).bind (fun branches rest₃ h => ?_)
    (fun branches _ => helse _ _) fun _ _ => ends_cons rfl
  have hrest₃ := takes_ofTail _ h
  refine (elseTail_decided hblock (by omega)).bind (fun otherwise rest₄ _ => ?_)
    (fun otherwise _ => hend _ _ otherwise) fun _ _ => ends_cons rfl
  exact (expect_decided rfl).map _

theorem for_decided (ht : t.kind = .keyword .for_) (hn : ts.length < n) :
    Decided anyKind (.ofRule stmt) finish (t :: ts) := by
  have hend : ∀ (var : Token) (items : Expr) (body : Stmt), Ready anyKind
      ((ofRule (expect · (.keyword .endFor))).map fun _ => Stmt.for_ var.text items body t) _ :=
    fun var items body => (expect_ready rfl).map _
  have hbody : ∀ (var : Token) (items : Expr), Ready anyKind _ _ := fun var items =>
    block_ready.bind (hend var items) fun _ _ => ends_cons rfl
  have hitems : ∀ var : Token, Ready anyKind _ _ := fun var =>
    iterable_ready.bind (hbody var) fun _ _ => ends_anyKind
  refine .cons ?_
  rw [stmt_run_for ht]
  refine .expect_bind rfl (fun var => .expect_bind rfl fun _ => hitems var)
    fun var rest₁ hrest₁ => ?_
  refine .expect_bind rfl (fun _ => hitems var) fun _ rest₂ hrest₂ => ?_
  refine iterable_decided.bind (fun items rest₃ h => ?_) (fun items _ => hbody var items)
    fun _ _ => ends_anyKind
  have hrest₃ := takes_ofRule _ h
  refine block_bind_decided hblock (by omega) (hend var items) (fun _ _ => ends_cons rfl)
    fun body rest₄ _ => ?_
  exact (expect_decided rfl).map _

theorem try_decided (ht : t.kind = .keyword .try_) (hn : ts.length < n) :
    Decided anyKind (.ofRule stmt) finish (t :: ts) := by
  refine .cons ?_
  rw [stmt_run_try ht]
  refine block_bind_decided hblock hn (fun body => arms_ready body t) (fun _ _ => ends_cons rfl)
    fun body rest hrest => ?_
  exact arms_decided hblock (by omega)

theorem stmt_decided (hn : ts.length ≤ n) : Decided endsBlock (.ofRule stmt) finish ts := by
  cases ts with
  | nil =>
    refine .peek_nil stmt_ready (fun finish => ?_) exprStmt_decided
    rw [ofRule, stmt]
    rfl
  | cons t ts =>
    cases hkind : t.kind with
    | keyword k =>
      cases k with
      | return_ => exact return_decided hkind
      | if_ => exact (if_decided hblock hkind hn).mono fun _ _ => rfl
      | for_ => exact (for_decided hblock hkind hn).mono fun _ _ => rfl
      | try_ => exact (try_decided hblock hkind hn).mono fun _ _ => rfl
      | _ =>
        refine .peek_cons stmt_ready (fun finish rest => ?_) exprStmt_decided
        rw [ofRule, stmt, hkind]
        rfl
    | _ =>
      refine .peek_cons stmt_ready (fun finish rest => ?_) exprStmt_decided
      rw [ofRule, stmt, hkind]
      rfl

end Decided

section Statements

/-- A statement and those behind it, or none in front of the end of a block. -/
def statementsTailRun : Run (List Stmt) := fun finish ts =>
  if atBlockEnd ts then .ok ([], ts)
  else ((ofRule stmt).bind fun s => (ofTail statements).map (s :: ·)) finish ts

theorem statements_run : ofTail statements = skipAllRun.bind fun _ => statementsTailRun := by
  have htail : ∀ (finish : Token) (rest : List Token),
      outcome (if atBlockEnd rest then keep [] rest
        else .widen <| (stmt finish rest).andThen fun s rest _ =>
          (statements finish rest).map (s :: ·)) = statementsTailRun finish rest := by
    intro finish rest
    rw [statementsTailRun]
    split
    · rfl
    · simp only [outcome_widen, outcome_andThen, outcome_map]
      rfl
  funext finish ts
  rw [ofTail, statements, outcome_andThen]
  simp only [htail]
  rfl

theorem statementsTail_of_end (h : atBlockEnd ts = true) :
    statementsTailRun finish ts = .ok ([], ts) :=
  if_pos h

theorem statementsTail_ready : Ready endsBlock statementsTailRun [] := by
  refine ⟨.keep fun _ _ h => ⟨[], statementsTail_of_end h.atBlockEnd⟩, ?_, fun h => absurd rfl h⟩
  intro finish ts ss rest h
  rw [statementsTailRun] at h
  split at h
  · cases h
    exact Nat.le_refl _
  · have htakes := (takes_ofRule stmt).bind
      (fun s => (takes_ofTail statements).map (f := (s :: ·))) h
    omega

variable (hblock : BlocksDecidedBelow finish n)
include hblock

theorem statementsTail_decided (hn : ts.length ≤ n)
    (htail : ∀ rest : List Token, rest.length < ts.length →
      Decided endsBlock (.ofTail statements) finish rest) :
    Decided endsBlock statementsTailRun finish ts := by
  cases ts with
  | nil => exact .kept_nil statementsTail_ready.toFinishes (statementsTail_of_end rfl)
  | cons t ts =>
    by_cases ht : endsBlock t.kind = true
    · exact .kept statementsTail_ready.toFinishes fun _ _ => statementsTail_of_end ht
    · refine .peek_cons statementsTail_ready (fun finish rest => if_neg ht) ?_
      refine (stmt_decided hblock hn).bind (fun s rest h => ?_)
        (fun _ _ => statements_ready.map _) fun _ h => h
      exact (htail rest (takes_ofRule _ h)).map _

theorem statements_decided (ts : List Token) (hn : ts.length ≤ n) :
    Decided endsBlock (.ofTail statements) finish ts := by
  rw [statements_run]
  refine (skipAll_decided ts).bind (fun _ mid h => ?_) (fun _ _ => statementsTail_ready)
    fun _ h => h
  have hmid := takes_ofTail _ h
  refine statementsTail_decided hblock (by omega) fun rest hlt => ?_
  exact statements_decided rest (by omega)
termination_by ts.length

omit hblock in
/-- A block keeps its first token, which is in front of the next one or is that. -/
theorem block_decided_of_statements (h : Decided endsBlock (.ofTail statements) finish ts) :
    Decided endsBlock (.ofTail block) finish ts := by
  have hok : ∀ {finish ts ss rest}, ofTail statements finish ts = .ok (ss, rest) →
      ofTail block finish ts = .ok (.block (orZero (ts.headD finish) ss), rest) := by
    intro finish ts ss rest h
    rw [block_run, h]
    rfl
  have herror : ∀ {finish ts e}, ofTail statements finish ts = .error e →
      ofTail block finish ts = .error e := by
    intro finish ts e h
    rw [block_run, h]
    rfl
  have hfinishes : ∀ {used u}, Finishes endsBlock (behind used (ofTail statements)) u →
      Finishes endsBlock (behind used (ofTail block)) u := by
    intro used u hu
    refine ⟨hu.voiced, fun finish rest hrest => ?_⟩
    obtain ⟨ss, hss⟩ := hu.reads finish rest hrest
    exact ⟨_, hok hss⟩
  cases h with
  | @accepted used rest ss hts h hused =>
    refine .accepted hts (hok h) ⟨fun t ht finish' rest' => ?_, hfinishes hused.finishes⟩
    rw [hok (hused.same t ht finish' rest'), hts]
    cases used with
    | nil =>
      rw [List.nil_append, List.nil_append, List.headD_cons, List.headD_eq_head?_getD, ht]
      rfl
    | cons t' used => rfl
  | @rejected used rest e hts h hused =>
    obtain ⟨u, hu⟩ := hused.finishes
    refine .rejected hts (herror h)
      ⟨hused.reports, fun t ht finish' rest' => ?_, u, hfinishes hu⟩
    exact herror (hused.same t ht finish' rest')

end Statements

theorem blocksDecidedBelow (n : Nat) : BlocksDecidedBelow finish n := by
  induction n with
  | zero => exact fun ts hn => absurd hn (Nat.not_lt_zero _)
  | succ n ih =>
    intro ts hn
    exact block_decided_of_statements (statements_decided ih ts (Nat.le_of_lt_succ hn))

theorem block_decided : Decided endsBlock (.ofTail block) finish ts :=
  blocksDecidedBelow (ts.length + 1) ts (Nat.lt_succ_self _)

end MooScript.Grammar
