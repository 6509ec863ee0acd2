import MooScript.Proofs.Syntax.Soundness.Expression

/-! What the rules for statements and programs read is what the tokens tell. -/
namespace MooScript.Grammar

open Reading

/-- The tokens of `ts` up to `rest` tell the words of a tree, which is as it should be; the tokens
it keeps have the property `P`. -/
structure Tells (P : Token → Prop) (ts : List Token) (ws : List Word) (conformant : Prop)
    (kept : List Token) (rest : List Token) : Prop where
  respelled : Respelled ts ws rest
  conformant : conformant
  kept : ∀ t ∈ kept, P t

/-- The same of a statement, which is a block or else is none. -/
def TellsStmt (P : Token → Prop) (asBlock : Bool) (ts : List Token) (s : Stmt)
    (rest : List Token) : Prop :=
  Tells P ts s.words (s.isBlock = asBlock ∧ s.Conformant) s.tokens rest

variable {P : Token → Prop} {finish : Token} {n : Nat}

theorem tells_nil {ts : List Token} : Tells P ts [] True [] ts :=
  ⟨.nil, trivial, List.forall_mem_nil P⟩

theorem skip_ensures (ts : List Token) :
    (skip (.symbol .semicolon) ts).Ensures
      (fun _ rest => Respelled ts [.symbol .semicolon] rest) (Blames P) := by
  cases ts with
  | nil => exact ensures_keep (.noSemicolon .nil)
  | cons t ts =>
    rw [skip]
    split
    · exact (ensures_keep (.symbol ‹_› .nil)).widen
    · exact ensures_keep (.noSemicolon .nil)

theorem skipSemicolons_ensures (ts : List Token) :
    (skipSemicolons ts).Ensures
      (fun _ rest => Respelled ts [] rest ∧
        (rest = ts ∨ ∃ t ts', ts = t :: ts' ∧ t.kind = .symbol .semicolon))
      (Blames P) := by
  induction ts with
  | nil => exact ensures_keep ⟨.nil, .inl rfl⟩
  | cons t ts ih =>
    rw [skipSemicolons]
    split
    · exact (ih.mono fun _ rest _ h => ⟨.semicolon ‹_› h.1, .inr ⟨t, ts, rfl, ‹_›⟩⟩).widen
    · exact ensures_keep ⟨.nil, .inl rfl⟩

theorem bindingName_ensures (ts : List Token) :
    (bindingName ts).Ensures
      (fun binding rest => Respelled ts (binding.toList.map .name) rest) (Blames P) := by
  cases ts with
  | nil => exact ensures_keep .nil
  | cons t ts =>
    rw [bindingName]
    split
    · exact (ensures_keep (.name ‹_› .nil)).widen
    · exact ensures_keep .nil

theorem kind_ne_integer_of_atBlockEnd {ts : List Token} (hend : finish.kind ≠ .integer)
    (h : atBlockEnd ts = true) : (ts.headD finish).kind ≠ .integer := by
  cases ts with
  | nil => exact hend
  | cons t ts =>
    intro hkind
    rw [List.headD_cons] at hkind
    rw [atBlockEnd, hkind] at h
    exact absurd h (by decide)

theorem headD_of_forall_mem {ts : List Token} (hfinish : P finish) (hts : ∀ t ∈ ts, P t) :
    P (ts.headD finish) := by
  cases ts with
  | nil => exact hfinish
  | cons t ts => exact hts t List.mem_cons_self

section

variable (hfinish : P finish)
include hfinish

theorem condition_ensures {ts : List Token} (hts : ∀ t ∈ ts, P t) :
    (condition finish ts).Ensures
      (fun e rest => ∃ opening closing mid, ts = opening :: mid ∧
        opening.kind = .symbol .leftParen ∧ closing.kind = .symbol .rightParen ∧
        e.IsRead P 0 mid (closing :: rest)) (Blames P) := by
  rw [condition]
  refine (expect_ensures hfinish hts).andThen fun opening mid _ h => ?_
  obtain ⟨hopening, rfl, hmid⟩ := h
  refine (expr_blames hfinish hmid).widen.andThen fun e rest _ he => ?_
  apply Ensures.map
  refine ((expect_ensures hfinish (he.respelled.forall_mem hmid)).mono
    fun closing rest' _ h => ?_).widen
  obtain ⟨hclosing, rfl, _⟩ := h
  exact ⟨opening, closing, mid, rfl, hopening, hclosing, he⟩

theorem condition_tells {ts : List Token} (hts : ∀ t ∈ ts, P t) :
    (condition finish ts).Ensures
      (fun e rest => Tells P ts e.conditionWords e.Conformant e.tokens rest) (Blames P) := by
  refine (condition_ensures hfinish hts).mono fun e rest _ h => ?_
  obtain ⟨opening, closing, mid, rfl, hopening, hclosing, he⟩ := h
  exact ⟨.symbol hopening (he.respelled.append (.symbol hclosing .nil)), he.conformant, he.kept⟩

/-- The word before a loop's range is part of the statement: parentheses may follow it. -/
theorem iterable_tells {t : Token} {ts : List Token} (ht : t.kind = .keyword .in_)
    (hts : ∀ t ∈ ts, P t) :
    (iterable finish ts).Ensures
      (fun e rest =>
        Tells P (t :: ts) (.keyword .in_ :: e.iterableWords) e.Conformant e.tokens rest)
      (Blames P) := by
  cases ts with
  | nil => exact ensures_error (unmet_blames hfinish hts (by decide))
  | cons t' ts =>
    rw [iterable]
    split
    · obtain ⟨ht', hrest⟩ := List.forall_mem_cons.mp hts
      refine (range_ensures hfinish (soundBelow hfinish _) ‹_› (Nat.lt_succ_self _) ht' hrest).mono
        fun e rest _ h => ?_
      obtain ⟨⟨first, last, rfl⟩, h⟩ := h
      exact ⟨.keyword ht h.respelled, h.conformant, h.kept⟩
    · split
      · refine (condition_ensures hfinish hts).mono fun e rest _ h => ?_
        obtain ⟨opening, closing, mid, hmid, hopening, hclosing, he⟩ := h
        rw [hmid]
        refine ⟨?_, he.conformant, he.kept⟩
        have hcondition : Respelled (opening :: mid) e.conditionWords rest :=
          .symbol hopening (he.respelled.append (.symbol hclosing .nil))
        -- Only the parentheses of a range are not in the words of the tree.
        cases e with
        | range first last own =>
          have hiterable := Respelled.iterable ht hopening hclosing he.respelled .nil
          rwa [List.append_nil] at hiterable
        | _ => exact .keyword ht hcondition
      · exact ensures_error (unmet_blames hfinish hts (by decide))

theorem exprStmt_tells {ts : List Token} (hts : ∀ t ∈ ts, P t) :
    (exprStmt finish ts).Ensures (TellsStmt P false ts) (Blames P) := by
  rw [exprStmt]
  refine (expr_blames hfinish hts).andThen fun e rest _ he => ?_
  apply Ensures.map
  refine (skip_ensures rest).mono fun _ rest' _ h => ?_
  refine ⟨?_, ⟨rfl, he.conformant⟩, he.kept⟩
  rw [Stmt.words, he.conformant.isAbsent_eq_false]
  exact he.respelled.append h

theorem returned_tells {t : Token} {ts : List Token} (ht : t.kind = .keyword .return_) (hp : P t)
    (hts : ∀ t ∈ ts, P t) :
    (returned finish t ts).Ensures
      (fun e rest => Tells P ts (if e.isAbsent then [] else e.words)
        (e.isAbsent = true ∨ e.Conformant) e.tokens rest) (Blames P) := by
  rw [returned]
  split
  · have habsent : (zero t).isAbsent = true := isAbsent_zero (by rw [ht]; decide)
    refine ensures_keep ⟨?_, .inl habsent, List.forall_mem_singleton.mpr hp⟩
    rw [habsent]
    exact .nil
  · refine ((expr_blames hfinish hts).mono fun e rest _ he => ?_).widen
    refine ⟨?_, .inr he.conformant, he.kept⟩
    rw [he.conformant.isAbsent_eq_false]
    exact he.respelled

end

/-- The statement about `block`, of lists of fewer than `n` tokens. -/
def BlocksSoundBelow (P : Token → Prop) (finish : Token) (n : Nat) : Prop :=
  ∀ ts : List Token, ts.length < n → (∀ t ∈ ts, P t) →
    (block finish ts).Ensures (TellsStmt P true ts) (Blames P)

theorem tells_noBranches {ts : List Token} : Tells P ts [] (True ∧ True) [] ts :=
  ⟨.nil, ⟨trivial, trivial⟩, List.forall_mem_nil P⟩

/-- What holds of the tokens of one more condition and its consequence as well. -/
theorem forall_mem_branches {c : Expr} {body : Stmt} {conditions : List Expr} {bodies : List Stmt}
    (hc : ∀ t ∈ c.tokens, P t) (hbody : ∀ t ∈ body.tokens, P t)
    (h : ∀ t ∈ Expr.tokensAll conditions ++ Stmt.tokensAll bodies, P t) :
    ∀ t ∈ Expr.tokensAll (c :: conditions) ++ Stmt.tokensAll (body :: bodies), P t := by
  obtain ⟨hconditions, hbodies⟩ := List.forall_mem_append.mp h
  exact List.forall_mem_append.mpr ⟨List.forall_mem_append.mpr ⟨hc, hconditions⟩,
    List.forall_mem_append.mpr ⟨hbody, hbodies⟩⟩

section

variable (hfinish : P finish) (hblock : BlocksSoundBelow P finish n)
include hfinish hblock

theorem branchTail_tells (ts : List Token) (hn : ts.length ≤ n) (hts : ∀ t ∈ ts, P t) :
    (branchTail finish ts).Ensures
      (fun branches rest => Tells P ts
        (Stmt.wordsOfBranches (.keyword .elseIf) (branches.map Prod.fst) (branches.map Prod.snd))
        (Expr.AllConformant (branches.map Prod.fst) ∧
          Stmt.BodiesConformant (branches.map Prod.snd))
        (Expr.tokensAll (branches.map Prod.fst) ++ Stmt.tokensAll (branches.map Prod.snd)) rest)
      (Blames P) := by
  match ts, hn, hts with
  | [], _, _ =>
    rw [branchTail]
    exact ensures_keep tells_noBranches
  | t :: ts, hn, hts =>
    rw [branchTail]
    split
    · rw [List.length_cons] at hn
      have hrest := (List.forall_mem_cons.mp hts).2
      apply Ensures.widen
      refine (condition_tells hfinish hrest).widen.andThen fun c ts₁ hlt₁ hc => ?_
      have hp₁ := hc.respelled.forall_mem hrest
      refine (hblock ts₁ (by omega) hp₁).andThen fun body ts₂ hlt₂ hbody => ?_
      apply Ensures.map
      refine (branchTail_tells ts₂ (by omega) (hbody.respelled.forall_mem hp₁)).mono
        fun branches rest _ hbranches => ?_
      have hbehind := hbody.respelled.append hbranches.respelled
      exact ⟨.keyword ‹_› (hc.respelled.append hbehind),
        ⟨⟨hc.conformant, hbranches.conformant.1⟩, hbody.conformant.1, hbody.conformant.2,
          hbranches.conformant.2⟩, forall_mem_branches hc.kept hbody.kept hbranches.kept⟩
    · exact ensures_keep tells_noBranches
termination_by ts.length

omit hfinish in
theorem elseTail_tells (ts : List Token) (hn : ts.length ≤ n) (hts : ∀ t ∈ ts, P t) :
    (elseTail finish ts).Ensures
      (fun otherwise rest => Tells P ts (Stmt.wordsOfElse otherwise) (Stmt.ElseConformant otherwise)
        (Stmt.tokensOfElse otherwise) rest) (Blames P) := by
  cases ts with
  | nil =>
    rw [elseTail]
    exact ensures_keep tells_nil
  | cons t ts =>
    rw [elseTail]
    split
    · apply Ensures.map
      refine ((hblock ts hn (List.forall_mem_cons.mp hts).2).mono fun body rest _ h => ?_).widen
      exact ⟨.keyword ‹_› h.respelled, h.conformant, h.kept⟩
    · exact ensures_keep tells_nil

theorem armTail_tells (ts : List Token) (hn : ts.length ≤ n) (hts : ∀ t ∈ ts, P t) :
    (armTail finish ts).Ensures
      (fun arms rest => Tells P ts (Arm.wordsAll arms) (Stmt.ArmsConformant arms)
        (Arm.tokensAll arms) rest) (Blames P) := by
  match ts, hn, hts with
  | [], _, _ =>
    rw [armTail]
    exact ensures_keep tells_nil
  | t :: ts, hn, hts =>
    rw [armTail]
    split
    · obtain ⟨hp, hrest⟩ := List.forall_mem_cons.mp hts
      apply Ensures.widen
      refine (bindingName_ensures ts).andThen fun binding ts₁ hlt₁ hbinding => ?_
      have hp₁ := hbinding.forall_mem hrest
      refine (expect_ensures hfinish hp₁).widen.andThen fun opening ts₂ hlt₂ h => ?_
      obtain ⟨hopening, rfl, hp₂⟩ := h
      have hread := errorFilters_ensures (soundBelow hfinish _) ts₂ (Nat.lt_succ_self _) hp₂
      refine hread.widen.andThen fun filters ts₃ hlt₃ hfilters => ?_
      have hp₃ := hfilters.respelled.forall_mem hp₂
      refine (expect_ensures hfinish hp₃).widen.andThen fun closing ts₄ hlt₄ h => ?_
      obtain ⟨hclosing, rfl, hp₄⟩ := h
      refine (hblock ts₄ (by simp only [List.length_cons] at *; omega) hp₄).andThen
        fun body ts₅ hlt₅ hbody => ?_
      apply Ensures.map
      refine (armTail_tells ts₅ (by simp only [List.length_cons] at *; omega)
        (hbody.respelled.forall_mem hp₄)).mono fun arms rest _ harms => ?_
      have hbehind : Respelled (closing :: ts₄)
          (.symbol .rightParen :: (body.words ++ Arm.wordsAll arms)) rest :=
        .symbol hclosing (hbody.respelled.append harms.respelled)
      have hkept := Token.forall_mem_node hp hfilters.kept
        (List.forall_mem_append.mpr ⟨hbody.kept, harms.kept⟩)
      refine ⟨.own ‹_› (hbinding.append (.symbol hopening ?_)),
        ⟨hfilters.conformant, hbody.conformant.1, hbody.conformant.2, harms.conformant⟩, hkept⟩
      exact hfilters.respelled.append hbehind
    · exact ensures_keep tells_nil
termination_by ts.length
decreasing_by
  subst_vars
  simp only [List.length_cons] at *
  omega

theorem if_tells {t : Token} {ts : List Token} (ht : t.kind = .keyword .if_)
    (hn : (t :: ts).length ≤ n) (hts : ∀ t' ∈ t :: ts, P t') :
    (stmt finish (t :: ts)).Ensures (TellsStmt P false (t :: ts)) (Blames P) := by
  rw [List.length_cons] at hn
  obtain ⟨hp, hrest⟩ := List.forall_mem_cons.mp hts
  rw [stmt, ht]
  refine (condition_tells hfinish hrest).widen.andThen fun c ts₁ hlt₁ hc => ?_
  have hp₁ := hc.respelled.forall_mem hrest
  refine (hblock ts₁ (by omega) hp₁).andThen fun body ts₂ hlt₂ hbody => ?_
  have hp₂ := hbody.respelled.forall_mem hp₁
  refine (branchTail_tells hfinish hblock ts₂ (by omega) hp₂).andThen
    fun branches ts₃ hlt₃ hbranches => ?_
  have hp₃ := hbranches.respelled.forall_mem hp₂
  refine (elseTail_tells hblock ts₃ (by omega) hp₃).andThen fun otherwise ts₄ hlt₄ helse => ?_
  apply Ensures.map
  refine ((expect_ensures hfinish (helse.respelled.forall_mem hp₃)).mono
    fun closing rest _ h => ?_).widen
  obtain ⟨hclosing, rfl, _⟩ := h
  have hopened : Respelled (t :: ts) (Stmt.wordsOfBranches (.own (.keyword .if_) t)
      (c :: branches.map Prod.fst) (body :: branches.map Prod.snd)) ts₃ :=
    .own ht (hc.respelled.append (hbody.respelled.append hbranches.respelled))
  have hlength : (c :: branches.map Prod.fst).length = (body :: branches.map Prod.snd).length := by
    rw [List.length_cons, List.length_cons, List.length_map, List.length_map]
  have hbodies : Stmt.BodiesConformant (body :: branches.map Prod.snd) :=
    ⟨hbody.conformant.1, hbody.conformant.2, hbranches.conformant.2⟩
  exact ⟨hopened.append (helse.respelled.append (.keyword hclosing .nil)),
    ⟨rfl, List.cons_ne_nil _ _, hlength, ⟨hc.conformant, hbranches.conformant.1⟩, hbodies,
      helse.conformant⟩,
    Token.forall_mem_node hp (forall_mem_branches hc.kept hbody.kept hbranches.kept) helse.kept⟩

theorem for_tells {t : Token} {ts : List Token} (ht : t.kind = .keyword .for_)
    (hn : (t :: ts).length ≤ n) (hts : ∀ t' ∈ t :: ts, P t') :
    (stmt finish (t :: ts)).Ensures (TellsStmt P false (t :: ts)) (Blames P) := by
  rw [List.length_cons] at hn
  obtain ⟨hp, hrest⟩ := List.forall_mem_cons.mp hts
  rw [stmt, ht]
  refine (expect_ensures hfinish hrest).widen.andThen fun var ts₁ hlt₁ h => ?_
  obtain ⟨hvar, rfl, hp₁⟩ := h
  refine (expect_ensures hfinish hp₁).widen.andThen fun word ts₂ hlt₂ h => ?_
  obtain ⟨hword, rfl, hp₂⟩ := h
  refine (iterable_tells hfinish hword hp₂).widen.andThen fun items ts₃ hlt₃ hitems => ?_
  have hp₃ := hitems.respelled.forall_mem hp₁
  refine (hblock ts₃ (by simp only [List.length_cons] at *; omega) hp₃).andThen
    fun body ts₄ hlt₄ hbody => ?_
  apply Ensures.map
  refine ((expect_ensures hfinish (hbody.respelled.forall_mem hp₃)).mono
    fun closing rest _ h => ?_).widen
  obtain ⟨hclosing, rfl, _⟩ := h
  have hloop := hitems.respelled.append (hbody.respelled.append (.keyword hclosing .nil))
  have hkept := Token.forall_mem_node hp hitems.kept hbody.kept
  exact ⟨.own ht (.name hvar hloop), ⟨rfl, hitems.conformant, hbody.conformant⟩, hkept⟩

theorem try_tells {t : Token} {ts : List Token} (ht : t.kind = .keyword .try_)
    (hn : (t :: ts).length ≤ n) (hts : ∀ t' ∈ t :: ts, P t') :
    (stmt finish (t :: ts)).Ensures (TellsStmt P false (t :: ts)) (Blames P) := by
  rw [List.length_cons] at hn
  obtain ⟨hp, hrest⟩ := List.forall_mem_cons.mp hts
  rw [stmt, ht]
  refine (hblock ts hn hrest).andThen fun body ts₁ hlt₁ hbody => ?_
  have hp₁ := hbody.respelled.forall_mem hrest
  refine (armTail_tells hfinish hblock ts₁ (by omega) hp₁).andThen fun arms ts₂ hlt₂ harms => ?_
  have hp₂ := harms.respelled.forall_mem hp₁
  split
  · exact ensures_error (unmet_blames hfinish hp₂ (by decide))
  · apply Ensures.map
    refine ((expect_ensures hfinish hp₂).mono fun closing rest _ h => ?_).widen
    obtain ⟨hclosing, rfl, _⟩ := h
    have hnonempty : arms ≠ [] := fun h => absurd (List.isEmpty_iff.mpr h) ‹_›
    have harmsEnd := harms.respelled.append (.keyword hclosing .nil)
    have hkept := Token.forall_mem_node hp hbody.kept harms.kept
    exact ⟨.own ht (hbody.respelled.append harmsEnd),
      ⟨rfl, hbody.conformant.1, hbody.conformant.2, hnonempty, harms.conformant⟩, hkept⟩

theorem stmt_tells (ts : List Token) (hn : ts.length ≤ n) (hts : ∀ t ∈ ts, P t) :
    (stmt finish ts).Ensures (TellsStmt P false ts) (Blames P) := by
  cases ts with
  | nil =>
    rw [stmt]
    exact exprStmt_tells hfinish hts
  | cons t ts =>
    cases hkind : t.kind with
    | keyword k =>
      cases k with
      | if_ => exact if_tells hfinish hblock hkind hn hts
      | for_ => exact for_tells hfinish hblock hkind hn hts
      | try_ => exact try_tells hfinish hblock hkind hn hts
      | return_ =>
        obtain ⟨hp, hrest⟩ := List.forall_mem_cons.mp hts
        rw [stmt, hkind]
        refine (returned_tells hfinish hkind hp hrest).andThen fun e rest _ he => ?_
        apply Ensures.map
        refine (skip_ensures rest).mono fun _ rest' _ h => ?_
        exact ⟨.own hkind (he.respelled.append h), ⟨rfl, he.conformant⟩,
          List.forall_mem_cons.mpr ⟨hp, he.kept⟩⟩
      | _ =>
        rw [stmt, hkind]
        exact exprStmt_tells hfinish hts
    | _ =>
      rw [stmt, hkind]
      exact exprStmt_tells hfinish hts

/-- Where a block has no statements, no integer stands. -/
theorem statements_tells (hend : finish.kind ≠ .integer) (ts : List Token) (hn : ts.length ≤ n)
    (hts : ∀ t ∈ ts, P t) :
    (statements finish ts).Ensures
      (fun ss rest => (ss = [] → (ts.headD finish).kind ≠ .integer) ∧
        Tells P ts (Stmt.wordsAll ss) (Stmt.AllConformant ss) (Stmt.tokensAll ss) rest)
      (Blames P) := by
  rw [statements]
  refine (skipSemicolons_ensures ts).andThen fun _ mid hlt h => ?_
  obtain ⟨hskipped, hstart⟩ := h
  have hmid := hskipped.forall_mem hts
  split
  · rename_i hatEnd
    refine ensures_keep ⟨fun _ => ?_, hskipped, trivial, List.forall_mem_nil P⟩
    rcases hstart with rfl | ⟨t, ts, rfl, ht⟩
    · exact kind_ne_integer_of_atBlockEnd hend hatEnd
    · exact fun hinteger => absurd (ht.symm.trans hinteger) (by decide)
  · apply Ensures.widen
    refine (stmt_tells hfinish hblock mid (by omega) hmid).andThen fun s rest hlt' hs => ?_
    apply Ensures.map
    refine (statements_tells hend rest (by omega) (hs.respelled.forall_mem hmid)).mono
      fun ss rest' _ hss => ?_
    refine ⟨fun hnil => absurd hnil (List.cons_ne_nil s ss),
      hskipped.append (hs.respelled.append hss.2.respelled),
      ⟨hs.conformant.1, hs.conformant.2, hss.2.conformant⟩, ?_⟩
    exact List.forall_mem_append.mpr ⟨hs.kept, hss.2.kept⟩
termination_by ts.length

end

theorem blocksSoundBelow (hfinish : P finish) (hend : finish.kind ≠ .integer) (n : Nat) :
    BlocksSoundBelow P finish n := by
  induction n with
  | zero => exact fun ts hn => absurd hn (Nat.not_lt_zero _)
  | succ n ih =>
    intro ts hn hts
    rw [block]
    apply Ensures.map
    refine (statements_tells hfinish ih hend ts (Nat.le_of_lt_succ hn) hts).mono
      fun ss rest _ h => ?_
    obtain ⟨hstart, hss⟩ := h
    cases ss with
    | nil =>
      -- The zero keeps the next token; were that an integer, it would seem to denote the zero.
      have habsent : (zero (ts.headD finish)).isAbsent = true := isAbsent_zero (hstart rfl)
      refine ⟨?_, ⟨rfl, .inl ⟨_, habsent, rfl⟩⟩, ?_⟩
      · rw [orZero, Stmt.words, Stmt.wordsAll, Stmt.words, habsent]
        exact hss.respelled
      · exact List.forall_mem_singleton.mpr (headD_of_forall_mem hfinish hts)
    | cons s ss =>
      exact ⟨hss.respelled, ⟨rfl, .inr ⟨List.cons_ne_nil s ss, hss.conformant⟩⟩, hss.kept⟩

theorem block_tells (hfinish : P finish) (hend : finish.kind ≠ .integer) {ts : List Token}
    (hts : ∀ t ∈ ts, P t) :
    (block finish ts).Ensures (TellsStmt P true ts) (Blames P) :=
  blocksSoundBelow hfinish hend (ts.length + 1) ts (Nat.lt_succ_self _) hts

end MooScript.Grammar
