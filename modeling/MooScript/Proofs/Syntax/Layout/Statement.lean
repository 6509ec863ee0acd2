import MooScript.Proofs.Syntax.Layout.Expression
import MooScript.Syntax.Grammar.Statement

/-! The rules for statements and programs read alike what is alike. -/
namespace MooScript

/-- The statements differ in their tokens only. -/
def Stmt.Alike (s s' : Stmt) : Prop := s.bare = s'.bare

theorem Arm.isEmpty_bareAll (arms : List Arm) : (Arm.bareAll arms).isEmpty = arms.isEmpty := by
  cases arms with
  | nil => rfl
  | cons arm arms =>
    obtain ⟨binding, filters, body, t⟩ := arm
    rfl

namespace Grammar

open Reading

variable {finish finish' t t' : Token} {ts ts' : List Token} {n : Nat}

theorem atBlockEnd_alike (hts : List.Forall₂ Token.Alike ts ts') :
    atBlockEnd ts' = atBlockEnd ts := by
  cases hts with
  | nil => rfl
  | cons ht _ => rw [atBlockEnd, atBlockEnd, ht.kind]

theorem skip_parallel (k : Kind) (hts : List.Forall₂ Token.Alike ts ts') :
    Parallel Eq (skip k ts) (skip k ts') := by
  cases hts with
  | nil => exact parallel_keep rfl .nil
  | cons ht hts =>
    rw [skip, skip, ht.kind]
    split
    · exact (parallel_keep rfl hts).widen
    · exact parallel_keep rfl (.cons ht hts)

theorem skipSemicolons_parallel (hts : List.Forall₂ Token.Alike ts ts') :
    Parallel Eq (skipSemicolons ts) (skipSemicolons ts') := by
  induction hts with
  | nil => exact parallel_keep rfl .nil
  | cons ht hts ih =>
    rw [skipSemicolons, skipSemicolons, ht.kind]
    split
    · exact ih.widen
    · exact parallel_keep rfl (.cons ht hts)

theorem bindingName_parallel (hts : List.Forall₂ Token.Alike ts ts') :
    Parallel Eq (bindingName ts) (bindingName ts') := by
  cases hts with
  | nil => exact parallel_keep rfl .nil
  | cons ht hts =>
    rw [bindingName, bindingName, ht.kind, ht.text]
    split
    · exact (parallel_keep rfl hts).widen
    · exact parallel_keep rfl (.cons ht hts)

theorem bareAll_orZero {start start' : Token} {body body' : List Stmt}
    (h : Stmt.bareAll body = Stmt.bareAll body') :
    Stmt.bareAll (orZero start body) = Stmt.bareAll (orZero start' body') := by
  cases body with
  | nil =>
    cases body' with
    | nil => rfl
    | cons s' body' => cases h
  | cons s body =>
    cases body' with
    | nil => cases h
    | cons s' body' => exact h

theorem condition_parallel (hfinish : finish.Alike finish')
    (hts : List.Forall₂ Token.Alike ts ts') :
    Parallel Expr.Alike (condition finish ts) (condition finish' ts') := by
  rw [condition, condition]
  refine (expect_parallel hfinish _ hts).andThen fun _ _ rest rest' _ _ _ hrest => ?_
  refine (expr_parallel hfinish hrest).widen.andThen fun e e' rest rest' _ _ he hrest => ?_
  exact (expect_parallel hfinish _ hrest).widen.map fun _ _ _ => he

theorem iterable_parallel (hfinish : finish.Alike finish')
    (hts : List.Forall₂ Token.Alike ts ts') :
    Parallel Expr.Alike (iterable finish ts) (iterable finish' ts') := by
  cases hts with
  | nil => exact parallel_fail hfinish _ .nil
  | cons ht hts =>
    rw [iterable, iterable, ht.kind]
    split
    · exact atom_parallel (alikeBelow hfinish _) (Nat.le_refl _) (.cons ht hts)
    · split
      · exact condition_parallel hfinish (.cons ht hts)
      · exact parallel_fail hfinish _ (.cons ht hts)

theorem returned_parallel (hfinish : finish.Alike finish') (ht : t.Alike t')
    (hts : List.Forall₂ Token.Alike ts ts') :
    Parallel Expr.Alike (returned finish t ts) (returned finish' t' ts') := by
  rw [returned, returned, startsWith_alike _ hts, atBlockEnd_alike hts]
  split
  · exact parallel_keep ⟨rfl, ht⟩ hts
  · exact (expr_parallel hfinish hts).widen

theorem exprStmt_parallel (hfinish : finish.Alike finish')
    (hts : List.Forall₂ Token.Alike ts ts') :
    Parallel Stmt.Alike (exprStmt finish ts) (exprStmt finish' ts') := by
  rw [exprStmt, exprStmt]
  refine (expr_parallel hfinish hts).andThen fun e e' rest rest' _ _ he hrest => ?_
  exact (skip_parallel _ hrest).map fun _ _ _ => congrArg Stmt.expr he.bare

/-- The tokens at the end are alike, and the rule for blocks reads alike what is alike, of lists of
fewer than `n` tokens. -/
structure BlocksAlikeBelow (finish finish' : Token) (n : Nat) : Prop where
  ends : finish.Alike finish'
  reads : ∀ {ts ts' : List Token}, ts.length < n → List.Forall₂ Token.Alike ts ts' →
    Parallel Stmt.Alike (block finish ts) (block finish' ts')

theorem branchTail_parallel {ts ts' : List Token} (h : BlocksAlikeBelow finish finish' n)
    (hn : ts.length ≤ n) (hts : List.Forall₂ Token.Alike ts ts') :
    Parallel (fun branches branches' =>
        Expr.bareAll (branches.map Prod.fst) = Expr.bareAll (branches'.map Prod.fst) ∧
          Stmt.bareAll (branches.map Prod.snd) = Stmt.bareAll (branches'.map Prod.snd))
      (branchTail finish ts) (branchTail finish' ts') := by
  cases hts with
  | nil =>
    rw [branchTail, branchTail]
    exact parallel_keep ⟨rfl, rfl⟩ .nil
  | cons ht hts =>
    rw [List.length_cons] at hn
    rw [branchTail, branchTail, ht.kind]
    split
    · apply Parallel.widen
      refine (condition_parallel h.ends hts).widen.andThen fun c c' ts₁ ts₁' hlt₁ _ hc hts₁ => ?_
      refine (h.reads (by omega) hts₁).andThen fun body body' ts₂ ts₂' hlt₂ _ hbody hts₂ => ?_
      refine (branchTail_parallel h (by omega) hts₂).map fun branches branches' hbranches => ?_
      exact ⟨congrArg₂ List.cons hc.bare hbranches.1, congrArg₂ List.cons hbody hbranches.2⟩
    · exact parallel_keep ⟨rfl, rfl⟩ (.cons ht hts)
termination_by ts.length
decreasing_by
  subst_vars
  rw [List.length_cons]
  omega

theorem elseTail_parallel (h : BlocksAlikeBelow finish finish' n) (hn : ts.length ≤ n)
    (hts : List.Forall₂ Token.Alike ts ts') :
    Parallel (fun otherwise otherwise' => Stmt.bareElse otherwise = Stmt.bareElse otherwise')
      (elseTail finish ts) (elseTail finish' ts') := by
  cases hts with
  | nil =>
    rw [elseTail, elseTail]
    exact parallel_keep rfl .nil
  | cons ht hts =>
    rw [elseTail, elseTail, ht.kind]
    split
    · exact (h.reads hn hts).widen.map fun body body' hbody => congrArg some hbody
    · exact parallel_keep rfl (.cons ht hts)

theorem armTail_parallel {ts ts' : List Token} (h : BlocksAlikeBelow finish finish' n)
    (hn : ts.length ≤ n) (hts : List.Forall₂ Token.Alike ts ts') :
    Parallel (fun arms arms' => Arm.bareAll arms = Arm.bareAll arms')
      (armTail finish ts) (armTail finish' ts') := by
  cases hts with
  | nil =>
    rw [armTail, armTail]
    exact parallel_keep rfl .nil
  | cons ht hts =>
    rw [List.length_cons] at hn
    rw [armTail, armTail, ht.kind]
    split
    · apply Parallel.widen
      refine (bindingName_parallel hts).andThen
        fun binding binding' ts₁ ts₁' hlt₁ _ hbinding hts₁ => ?_
      refine (expect_parallel h.ends _ hts₁).widen.andThen fun _ _ ts₂ ts₂' hlt₂ _ _ hts₂ => ?_
      have hfilters := errorFilters_parallel (alikeBelow h.ends _) (Nat.lt_succ_self _) hts₂
      refine hfilters.widen.andThen fun filters filters' ts₃ ts₃' hlt₃ _ hfilters hts₃ => ?_
      refine (expect_parallel h.ends _ hts₃).widen.andThen fun _ _ ts₄ ts₄' hlt₄ _ _ hts₄ => ?_
      refine (h.reads (by omega) hts₄).andThen fun body body' ts₅ ts₅' hlt₅ _ hbody hts₅ => ?_
      refine (armTail_parallel h (by omega) hts₅).map fun arms arms' harms => ?_
      rw [Arm.bareAll, Arm.bareAll, hbinding, hfilters, hbody, harms]
    · exact parallel_keep rfl (.cons ht hts)
termination_by ts.length
decreasing_by
  subst_vars
  rw [List.length_cons]
  omega

section

variable (h : BlocksAlikeBelow finish finish' n) (hn : ts.length < n) (ht : t.Alike t')
  (hts : List.Forall₂ Token.Alike ts ts')
include h hn ht hts

theorem if_parallel (hkind : t.kind = .keyword .if_) :
    Parallel Stmt.Alike (stmt finish (t :: ts)) (stmt finish' (t' :: ts')) := by
  rw [stmt, stmt, ht.kind, hkind]
  refine (condition_parallel h.ends hts).widen.andThen fun c c' ts₁ ts₁' hlt₁ _ hc hts₁ => ?_
  refine (h.reads (by omega) hts₁).andThen fun body body' ts₂ ts₂' hlt₂ _ hbody hts₂ => ?_
  refine (branchTail_parallel h (by omega) hts₂).andThen
    fun branches branches' ts₃ ts₃' hlt₃ _ hbranches hts₃ => ?_
  refine (elseTail_parallel h (by omega) hts₃).andThen
    fun otherwise otherwise' ts₄ ts₄' hlt₄ _ helse hts₄ => ?_
  refine (expect_parallel h.ends _ hts₄).widen.map fun _ _ _ => ?_
  have hconditions := congrArg₂ List.cons hc.bare hbranches.1
  have hconsequences := congrArg₂ List.cons hbody hbranches.2
  rw [Stmt.Alike, Stmt.bare, Stmt.bare, helse]
  exact congrArg₂ (Stmt.if_ · · _ _) hconditions hconsequences

theorem for_parallel (hkind : t.kind = .keyword .for_) :
    Parallel Stmt.Alike (stmt finish (t :: ts)) (stmt finish' (t' :: ts')) := by
  rw [stmt, stmt, ht.kind, hkind]
  refine (expect_parallel h.ends _ hts).widen.andThen fun var var' ts₁ ts₁' hlt₁ _ hvar hts₁ => ?_
  refine (expect_parallel h.ends _ hts₁).widen.andThen fun _ _ ts₂ ts₂' hlt₂ _ _ hts₂ => ?_
  refine (iterable_parallel h.ends hts₂).widen.andThen
    fun items items' ts₃ ts₃' hlt₃ _ hitems hts₃ => ?_
  refine (h.reads (by omega) hts₃).andThen fun body body' ts₄ ts₄' _ _ hbody hts₄ => ?_
  refine (expect_parallel h.ends _ hts₄).widen.map fun _ _ _ => ?_
  rw [Stmt.Alike, Stmt.bare, Stmt.bare, hvar.text, hitems.bare, hbody]

theorem try_parallel (hkind : t.kind = .keyword .try_) :
    Parallel Stmt.Alike (stmt finish (t :: ts)) (stmt finish' (t' :: ts')) := by
  rw [stmt, stmt, ht.kind, hkind]
  refine (h.reads hn hts).andThen fun body body' ts₁ ts₁' hlt₁ _ hbody hts₁ => ?_
  refine (armTail_parallel h (by omega) hts₁).andThen fun arms arms' ts₂ ts₂' _ _ harms hts₂ => ?_
  rw [← Arm.isEmpty_bareAll arms', ← harms, Arm.isEmpty_bareAll]
  split
  · exact parallel_fail h.ends _ hts₂
  · refine (expect_parallel h.ends _ hts₂).widen.map fun _ _ _ => ?_
    rw [Stmt.Alike, Stmt.bare, Stmt.bare, hbody, harms]

end

theorem stmt_parallel (h : BlocksAlikeBelow finish finish' n) (hn : ts.length ≤ n)
    (hts : List.Forall₂ Token.Alike ts ts') :
    Parallel Stmt.Alike (stmt finish ts) (stmt finish' ts') := by
  cases hts with
  | nil =>
    rw [stmt, stmt]
    exact exprStmt_parallel h.ends .nil
  | @cons t t' ts ts' ht hts =>
    cases hkind : t.kind with
    | keyword k =>
      cases k with
      | if_ => exact if_parallel h hn ht hts hkind
      | for_ => exact for_parallel h hn ht hts hkind
      | try_ => exact try_parallel h hn ht hts hkind
      | return_ =>
        rw [stmt, stmt, ht.kind, hkind]
        refine (returned_parallel h.ends ht hts).andThen fun e e' rest rest' _ _ he hrest => ?_
        refine (skip_parallel _ hrest).map fun _ _ _ => ?_
        rw [Stmt.Alike, Stmt.bare, Stmt.bare, he.bare]
      | _ =>
        rw [stmt, stmt, ht.kind, hkind]
        exact exprStmt_parallel h.ends (.cons ht hts)
    | _ =>
      rw [stmt, stmt, ht.kind, hkind]
      exact exprStmt_parallel h.ends (.cons ht hts)

theorem statements_parallel {ts ts' : List Token} (h : BlocksAlikeBelow finish finish' n)
    (hn : ts.length ≤ n) (hts : List.Forall₂ Token.Alike ts ts') :
    Parallel (fun body body' => Stmt.bareAll body = Stmt.bareAll body')
      (statements finish ts) (statements finish' ts') := by
  rw [statements, statements]
  refine (skipSemicolons_parallel hts).andThen fun _ _ mid mid' hlt _ _ hmid => ?_
  rw [atBlockEnd_alike hmid]
  split
  · exact parallel_keep rfl hmid
  · apply Parallel.widen
    refine (stmt_parallel h (by omega) hmid).andThen fun s s' rest rest' hlt' _ hs hrest => ?_
    refine (statements_parallel h (by omega) hrest).map fun body body' hbody => ?_
    rw [Stmt.bareAll, Stmt.bareAll, hs, hbody]
termination_by ts.length

theorem blocksAlikeBelow (hfinish : finish.Alike finish') (n : Nat) :
    BlocksAlikeBelow finish finish' n := by
  induction n with
  | zero => exact ⟨hfinish, fun hn => absurd hn (Nat.not_lt_zero _)⟩
  | succ n ih =>
    refine ⟨hfinish, fun {ts ts'} hn hts => ?_⟩
    rw [block, block]
    refine (statements_parallel ih (Nat.le_of_lt_succ hn) hts).map fun body body' hbody => ?_
    exact congrArg Stmt.block (bareAll_orZero hbody)

theorem block_parallel (hfinish : finish.Alike finish') (hts : List.Forall₂ Token.Alike ts ts') :
    Parallel Stmt.Alike (block finish ts) (block finish' ts') :=
  (blocksAlikeBelow hfinish (ts.length + 1)).reads (Nat.lt_succ_self _) hts

theorem takeWhile_alike (hts : List.Forall₂ Token.Alike ts ts') :
    List.Forall₂ Token.Alike (ts.takeWhile (·.kind != .eof)) (ts'.takeWhile (·.kind != .eof)) := by
  induction hts with
  | nil => exact .nil
  | cons ht hts ih =>
    rw [List.takeWhile_cons, List.takeWhile_cons, ht.kind]
    split
    · exact .cons ht ih
    · exact .nil

theorem find?_alike (hfinish : finish.Alike finish') (hts : List.Forall₂ Token.Alike ts ts') :
    ((ts.find? (·.kind == .eof)).getD finish).Alike
      ((ts'.find? (·.kind == .eof)).getD finish') := by
  induction hts with
  | nil => exact hfinish
  | cons ht hts ih =>
    rw [List.find?_cons, List.find?_cons, ht.kind]
    split
    · exact ht
    · exact ih

theorem endOfInput_alike (last? last?' : Option Token) :
    (Token.endOfInput last?).Alike (Token.endOfInput last?') := by
  cases last? <;> cases last?' <;> exact ⟨rfl, rfl⟩

/-- What the grammar reads of token lists of the same contents is alike. -/
theorem input_alike {tokens tokens' : List Token}
    (h : Token.contents tokens = Token.contents tokens') :
    List.Forall₂ Token.Alike (input tokens).1 (input tokens').1 ∧
      (input tokens).2.Alike (input tokens').2 := by
  have hall := Token.forall₂_alike_of_contents h
  exact ⟨takeWhile_alike hall, find?_alike (endOfInput_alike _ _) hall⟩

end Grammar

open Grammar

/-- Token lists of the same contents are parsed to trees that differ in their tokens only, or to
errors that differ in their place only. -/
theorem Stmt.parse_alike {tokens tokens' : List Token}
    (h : Token.contents tokens = Token.contents tokens') :
    (∃ s s', Stmt.parse tokens = .ok s ∧ Stmt.parse tokens' = .ok s' ∧ s.Alike s') ∨
      ∃ e e', Stmt.parse tokens = .error e ∧ Stmt.parse tokens' = .error e' ∧
        e.unplaced = e'.unplaced := by
  obtain ⟨hts, hfinish⟩ := input_alike h
  have hblock := block_parallel hfinish hts
  unfold Stmt.parse
  generalize input tokens = given at *
  generalize input tokens' = given' at *
  obtain ⟨ts, finish⟩ := given
  obtain ⟨ts', finish'⟩ := given'
  dsimp only at *
  cases hread : Grammar.block finish ts <;> cases hread' : Grammar.block finish' ts' <;>
    rw [hread, hread'] at hblock <;> cases hblock
  case error.error e e' he => exact .inr ⟨e, e', rfl, rfl, he⟩
  case ok.ok p p' hprogram hrest =>
    obtain ⟨program, rest, _⟩ := p
    obtain ⟨program', rest', _⟩ := p'
    cases hrest with
    | nil => exact .inl ⟨program, program', rfl, rfl, hprogram⟩
    | cons ht _ =>
      exact .inr ⟨_, _, rfl, rfl, congrArg (SyntaxError.unexpectedToken _) ht.unplaced⟩

end MooScript
