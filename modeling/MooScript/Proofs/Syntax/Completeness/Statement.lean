import MooScript.Proofs.Syntax.Completeness.Expression

/-! Statements read back from their words, if their parts are. -/
namespace MooScript.Grammar

open Reading MooScript.Expr

variable {finish t : Token} {ts rest : List Token} {e : Expr} {s body : Stmt}

/-- Neither a semicolon nor the end of a block is in front. -/
def StartsStmt (ts : List Token) : Prop :=
  startsWith (.symbol .semicolon) ts = false ∧ atBlockEnd ts = false

/-- Where its words are spelled, the statement is read, apart from its tokens. -/
def StmtReads (finish : Token) (s : Stmt) : Prop :=
  ∀ ts rest, Spelled ts s.words rest →
    StartsStmt ts ∧ ∃ s' : Stmt, s'.bare = s.bare ∧ (stmt finish ts).Yields s' rest

/-- In front of the end of a block, the statements are read. -/
def StatementsRead (finish : Token) (ss : List Stmt) : Prop :=
  ∀ ts rest, Spelled ts (Stmt.wordsAll ss) rest → atBlockEnd rest = true →
    ∃ ss', Stmt.bareAll ss' = Stmt.bareAll ss ∧ (statements finish ts).Yields ss' rest

/-- In front of the end of a block, the block is read. -/
def BlockReads (finish : Token) (s : Stmt) : Prop :=
  ∀ ts rest, Spelled ts s.words rest → atBlockEnd rest = true →
    ∃ s' : Stmt, s'.bare = s.bare ∧ (block finish ts).Yields s' rest

theorem bare_of_isAbsent (h : e.isAbsent = true) : e.bare = .literal (.integer 0) .erased := by
  cases e with
  | literal value t =>
    cases value with
    | integer n =>
      obtain ⟨hn, _⟩ := Bool.and_eq_true_iff.mp h
      simp [beq_iff_eq.mp hn]
    | _ => cases h
  | _ => cases h

theorem atBlockEnd_of_kind {k : Kind} (ht : t.kind = k) (hk : endsBlock k = true) :
    atBlockEnd (t :: ts) = true := by
  rw [atBlockEnd, ht, hk]

theorem startsStmt_of_kind {k : Kind} (ht : t.kind = k) (hk : endsBlock k = false)
    (hne : k ≠ .symbol .semicolon) : StartsStmt (t :: ts) := by
  rw [StartsStmt, startsWith, atBlockEnd, ht, hk]
  exact ⟨beq_eq_false_iff_ne.mpr hne, rfl⟩

theorem startsWith_of_atBlockEnd (h : atBlockEnd ts = true) :
    startsWith (.symbol .semicolon) ts = false := by
  cases ts with
  | nil => rfl
  | cons t ts =>
    rw [startsWith, beq_eq_false_iff_ne]
    intro hkind
    rw [atBlockEnd, hkind] at h
    cases h

theorem yields_skipSemicolons (h : startsWith (.symbol .semicolon) ts = false) :
    (skipSemicolons ts).Yields () ts := by
  cases ts with
  | nil => exact yields_keep
  | cons t ts =>
    rw [skipSemicolons, if_neg (beq_eq_false_iff_ne.mp h)]
    exact yields_keep

theorem yields_skip (ht : t.kind = .symbol .semicolon) :
    (skip (.symbol .semicolon) (t :: rest)).Yields () rest := by
  rw [skip, if_pos ht]
  exact yields_keep.widen

theorem yields_condition (h : Parses finish 0 e) (hs : Spelled ts e.conditionWords rest) :
    ∃ e', e'.bare = e.bare ∧ (condition finish ts).Yields e' rest := by
  obtain ⟨opening, mid, rfl, hopening, hs⟩ := hs.symbol
  obtain ⟨_, hspelled, hs⟩ := Spelled.append_iff.mp hs
  obtain ⟨closing, rfl, hclosing⟩ := hs.loneSymbol
  obtain ⟨e', hbare, hy⟩ := h mid _ hspelled (stops_of_kind hclosing rfl)
  refine ⟨e', hbare, ?_⟩
  rw [condition]
  exact (yields_expect hopening).andThen
    (hy.widen.andThen ((yields_expect hclosing).widen.map _))

theorem yields_iterable (he : e.Conformant) (hs : Spelled ts e.iterableWords rest) :
    ∃ e', e'.bare = e.bare ∧ (iterable finish ts).Yields e' rest := by
  cases e with
  | range first last t =>
    obtain ⟨e', hbare, hy⟩ := yields_range (first.parses he.1) (last.parses he.2) hs
    obtain ⟨t', mid, rfl, hkind, _⟩ := Spelled.own hs
    refine ⟨e', hbare, ?_⟩
    rw [iterable, if_pos hkind]
    exact hy
  | _ =>
    obtain ⟨e', hbare, hy⟩ := yields_condition (parses _ he) hs
    obtain ⟨t', mid, rfl, hkind, _⟩ := Spelled.symbol hs
    refine ⟨e', hbare, ?_⟩
    rw [iterable, if_neg (by rw [hkind]; decide), if_pos hkind]
    exact hy

/-- The token begins an expression, and no other statement. -/
theorem stmt_eq_exprStmt (ht : t.kind.startsExpr = true) :
    stmt finish (t :: ts) = exprStmt finish (t :: ts) := by
  rw [stmt]
  cases hkind : t.kind with
  | keyword k =>
    rw [hkind] at ht
    cases k <;> first | rfl | cases ht
  | _ => rfl

theorem startsStmt_of_startsExpr (ht : t.kind.startsExpr = true) : StartsStmt (t :: ts) := by
  constructor
  · exact beq_eq_false_iff_ne.mpr (kind_ne_of_startsExpr ht rfl)
  · rw [atBlockEnd]
    cases hkind : t.kind with
    | keyword k =>
      rw [hkind] at ht
      cases k <;> first | rfl | cases ht
    | _ => rfl

theorem exprStmt_reads (he : e.Conformant) : StmtReads finish (.expr e) := by
  intro ts rest hs
  rw [Stmt.words, he.isAbsent_eq_false] at hs
  obtain ⟨_, hspelled, hs⟩ := Spelled.append_iff.mp hs
  obtain ⟨semicolon, rfl, hkind⟩ := hs.loneSymbol
  obtain ⟨e', hbare, hy⟩ := e.parses he ts _ hspelled (stops_of_kind hkind rfl)
  obtain ⟨t, after, rfl, hhead, _⟩ := spelled_head he hspelled
  refine ⟨startsStmt_of_startsExpr hhead, .expr e', by simp [hbare], ?_⟩
  rw [stmt_eq_exprStmt hhead, exprStmt]
  exact hy.andThen ((yields_skip hkind).map _)

theorem return_reads (he : e.isAbsent = true ∨ e.Conformant) :
    StmtReads finish (.return_ e t) := by
  intro ts rest hs
  obtain ⟨t', after, rfl, hkind, hs⟩ := Spelled.own hs
  refine ⟨startsStmt_of_kind hkind rfl (by decide), ?_⟩
  rcases he with habsent | he
  · rw [habsent] at hs
    obtain ⟨semicolon, rfl, hsemicolon⟩ := Spelled.loneSymbol hs
    refine ⟨.return_ (zero t') t', ?_, ?_⟩
    · simp [zero, bare_of_isAbsent habsent]
    · have hat : startsWith (.symbol .semicolon) (semicolon :: rest) = true :=
        beq_iff_eq.mpr hsemicolon
      rw [stmt, hkind]
      refine Yields.andThen ?_ ((yields_skip hsemicolon).map _)
      rw [returned, hat]
      exact yields_keep
  · rw [he.isAbsent_eq_false] at hs
    obtain ⟨_, hspelled, hs⟩ := Spelled.append_iff.mp hs
    obtain ⟨semicolon, rfl, hsemicolon⟩ := hs.loneSymbol
    obtain ⟨e', hbare, hy⟩ :=
      e.parses he after _ hspelled (stops_of_kind hsemicolon rfl)
    obtain ⟨t₁, after₁, rfl, hhead, _⟩ := spelled_head he hspelled
    obtain ⟨hat, hend⟩ : StartsStmt (t₁ :: after₁) := startsStmt_of_startsExpr hhead
    refine ⟨.return_ e' t', by simp [hbare], ?_⟩
    rw [stmt, hkind]
    refine Yields.andThen ?_ ((yields_skip hsemicolon).map _)
    rw [returned, hat, hend]
    exact hy.widen

theorem statements_nil : StatementsRead finish [] := by
  intro ts rest hs hend
  obtain rfl := Spelled.nil_iff.mp hs
  refine ⟨[], rfl, ?_⟩
  rw [statements]
  refine (yields_skipSemicolons (startsWith_of_atBlockEnd hend)).andThen ?_
  rw [if_pos hend]
  exact yields_keep

theorem statements_cons {ss : List Stmt} (hfirst : StmtReads finish s)
    (hrest : StatementsRead finish ss) : StatementsRead finish (s :: ss) := by
  intro ts rest hs hend
  obtain ⟨mid, hspelled, hs⟩ := Spelled.append_iff.mp hs
  obtain ⟨⟨hsemicolon, hat⟩, s', hbare, hy⟩ := hfirst ts mid hspelled
  obtain ⟨ss', hbareAll, hyAll⟩ := hrest mid rest hs hend
  refine ⟨s' :: ss', by simp [hbare, hbareAll], ?_⟩
  rw [statements]
  refine (yields_skipSemicolons hsemicolon).andThen ?_
  rw [if_neg (by rw [hat]; decide)]
  exact (hy.andThen (hyAll.map _)).widen

theorem block_reads {ss : List Stmt} (hne : ss ≠ []) (h : StatementsRead finish ss) :
    BlockReads finish (.block ss) := by
  intro ts rest hs hend
  obtain ⟨ss', hbare, hy⟩ := h ts rest hs hend
  refine ⟨.block (orZero (ts.headD finish) ss'), ?_, ?_⟩
  · cases ss' with
    | nil =>
      cases ss with
      | nil => exact absurd rfl hne
      | cons s ss => cases hbare
    | cons s' ss' =>
      change Stmt.block (Stmt.bareAll (s' :: ss')) = Stmt.block (Stmt.bareAll ss)
      rw [hbare]
  · rw [block]
    exact hy.map _

theorem emptyBlock_reads (he : e.isAbsent = true) : BlockReads finish (.block [.expr e]) := by
  intro ts rest hs hend
  rw [Stmt.words, Stmt.wordsAll, Stmt.words, he] at hs
  have hnil : StatementsRead finish [] := statements_nil
  obtain ⟨ss', hbare, hy⟩ := hnil ts rest hs hend
  cases ss' with
  | nil =>
    refine ⟨.block [.expr (zero (ts.headD finish))], ?_, ?_⟩
    · simp [zero, bare_of_isAbsent he]
    · rw [block]
      exact hy.map _
  | cons s' ss' => cases hbare

/-- The next token is a keyword that ends a block, and it is none of those that go on with it. -/
def EndsBefore (k : Keyword) (ts : List Token) : Prop :=
  atBlockEnd ts = true ∧ startsWith (.keyword k) ts = false

theorem endsBefore_of_kind {k : Kind} {word : Keyword} (ht : t.kind = k)
    (hk : endsBlock k = true) (hne : k ≠ .keyword word) : EndsBefore word (t :: ts) := by
  rw [EndsBefore, startsWith, ht]
  exact ⟨atBlockEnd_of_kind ht hk, beq_eq_false_iff_ne.mpr hne⟩

theorem kind_ne_of_startsWith {kind : Kind} (h : startsWith kind (t :: ts) = false) :
    t.kind ≠ kind :=
  beq_eq_false_iff_ne.mp h

def BranchesRead (finish : Token) (conditions : List Expr) (bodies : List Stmt) : Prop :=
  ∀ ts rest, Spelled ts (Stmt.wordsOfBranches (.keyword .elseIf) conditions bodies) rest →
    EndsBefore .elseIf rest → atBlockEnd ts = true ∧
    ∃ branches, Expr.bareAll (branches.map Prod.fst) = Expr.bareAll conditions ∧
      Stmt.bareAll (branches.map Prod.snd) = Stmt.bareAll bodies ∧
      (branchTail finish ts).Yields branches rest

theorem branches_nil : BranchesRead finish [] [] := by
  intro ts rest hs ⟨hend, hne⟩
  obtain rfl := Spelled.nil_iff.mp hs
  refine ⟨hend, [], rfl, rfl, ?_⟩
  cases ts with
  | nil =>
    rw [branchTail]
    exact yields_keep
  | cons t ts =>
    rw [branchTail, if_neg (kind_ne_of_startsWith hne)]
    exact yields_keep

theorem branches_cons {conditions : List Expr} {bodies : List Stmt} (he : e.Conformant)
    (hbody : BlockReads finish body) (hbranches : BranchesRead finish conditions bodies) :
    BranchesRead finish (e :: conditions) (body :: bodies) := by
  intro ts rest hs hend
  obtain ⟨t, after, rfl, hkind, hs⟩ := Spelled.keyword hs
  obtain ⟨mid, hspelled, hs⟩ := Spelled.append_iff.mp hs
  obtain ⟨mid', hspelledBody, hs⟩ := Spelled.append_iff.mp hs
  obtain ⟨hat, branches, hbareConditions, hbareBodies, hyBranches⟩ := hbranches mid' rest hs hend
  obtain ⟨e', hbare, hy⟩ := yields_condition (e.parses he) hspelled
  obtain ⟨body', hbareBody, hyBody⟩ := hbody mid mid' hspelledBody hat
  refine ⟨atBlockEnd_of_kind hkind rfl, (e', body') :: branches, ?_, ?_, ?_⟩
  · simp [hbare, hbareConditions]
  · simp [hbareBody, hbareBodies]
  · rw [branchTail, if_pos hkind]
    exact (hy.widen.andThen (hyBody.andThen (hyBranches.map _))).widen

theorem yields_elseTail {otherwise : Option Stmt} (h : ∀ body ∈ otherwise, BlockReads finish body)
    (ht : t.kind = .keyword .endIf) (hs : Spelled ts (Stmt.wordsOfElse otherwise) (t :: rest)) :
    EndsBefore .elseIf ts ∧ ∃ otherwise', Stmt.bareElse otherwise' = Stmt.bareElse otherwise ∧
      (elseTail finish ts).Yields otherwise' (t :: rest) := by
  cases otherwise with
  | none =>
    obtain rfl := Spelled.nil_iff.mp hs
    refine ⟨endsBefore_of_kind ht rfl (by decide), none, rfl, ?_⟩
    rw [elseTail, if_neg (by rw [ht]; decide)]
    exact yields_keep
  | some body =>
    obtain ⟨t', after, rfl, hkind, hs⟩ := Spelled.keyword hs
    obtain ⟨body', hbare, hy⟩ := h body rfl after _ hs (atBlockEnd_of_kind ht rfl)
    refine ⟨endsBefore_of_kind hkind rfl (by decide), some body', ?_, ?_⟩
    · simp [hbare]
    · rw [elseTail, if_pos hkind]
      exact hy.widen.map _

theorem if_reads {conditions : List Expr} {bodies : List Stmt} {otherwise : Option Stmt}
    (he : e.Conformant) (hbody : BlockReads finish body)
    (hbranches : BranchesRead finish conditions bodies)
    (helse : ∀ body ∈ otherwise, BlockReads finish body) :
    StmtReads finish (.if_ (e :: conditions) (body :: bodies) otherwise t) := by
  intro ts rest hs
  obtain ⟨ts₃, hopened, hs⟩ := Spelled.append_iff.mp hs
  obtain ⟨ts₄, hspelledElse, hs⟩ := Spelled.append_iff.mp hs
  obtain ⟨closing, rfl, hclosing⟩ := hs.loneKeyword
  obtain ⟨t', after, rfl, hkind, hs⟩ := Spelled.own hopened
  obtain ⟨ts₁, hspelled, hs⟩ := Spelled.append_iff.mp hs
  obtain ⟨ts₂, hspelledBody, hs⟩ := Spelled.append_iff.mp hs
  obtain ⟨hat, otherwise', hbareElse, hyElse⟩ := yields_elseTail helse hclosing hspelledElse
  obtain ⟨hatBranches, branches, hbareConditions, hbareBodies, hyBranches⟩ :=
    hbranches ts₂ ts₃ hs hat
  obtain ⟨e', hbare, hy⟩ := yields_condition (e.parses he) hspelled
  obtain ⟨body', hbareBody, hyBody⟩ := hbody ts₁ ts₂ hspelledBody hatBranches
  refine ⟨startsStmt_of_kind hkind rfl (by decide),
    .if_ (e' :: branches.map Prod.fst) (body' :: branches.map Prod.snd) otherwise' t', ?_, ?_⟩
  · simp [hbare, hbareBody, hbareConditions, hbareBodies, hbareElse]
  · rw [stmt, hkind]
    exact hy.widen.andThen (hyBody.andThen (hyBranches.andThen
      (hyElse.andThen ((yields_expect hclosing).widen.map _))))

theorem for_reads {var : String} (he : e.Conformant) (hbody : BlockReads finish body) :
    StmtReads finish (.for_ var e body t) := by
  intro ts rest hs
  obtain ⟨t', _, rfl, hkind, hs⟩ := Spelled.own hs
  obtain ⟨ident, _, rfl, hident, rfl, hs'⟩ := hs.name
  obtain ⟨word, after, rfl, hword, hs''⟩ := hs'.keyword
  obtain ⟨mid, hspelled, hs₁⟩ := Spelled.append_iff.mp hs''
  obtain ⟨mid', hspelledBody, hs₂⟩ := Spelled.append_iff.mp hs₁
  obtain ⟨closing, rfl, hclosing⟩ := hs₂.loneKeyword
  obtain ⟨e', hbare, hy⟩ := yields_iterable he hspelled
  obtain ⟨body', hbareBody, hyBody⟩ :=
    hbody mid _ hspelledBody (atBlockEnd_of_kind hclosing rfl)
  refine ⟨startsStmt_of_kind hkind rfl (by decide),
    .for_ ident.text e' body' t', by simp [hbare, hbareBody], ?_⟩
  rw [stmt, hkind]
  exact (yields_expect hident).widen.andThen ((yields_expect hword).widen.andThen
    (hy.widen.andThen (hyBody.andThen ((yields_expect hclosing).widen.map _))))

def ArmsRead (finish : Token) (arms : List Arm) : Prop :=
  ∀ ts rest, Spelled ts (Arm.wordsAll arms) rest → EndsBefore .except rest →
    atBlockEnd ts = true ∧ ∃ arms', Arm.bareAll arms' = Arm.bareAll arms ∧
      (armTail finish ts).Yields arms' rest

theorem arms_nil : ArmsRead finish [] := by
  intro ts rest hs ⟨hend, hne⟩
  obtain rfl := Spelled.nil_iff.mp hs
  refine ⟨hend, [], rfl, ?_⟩
  cases ts with
  | nil =>
    rw [armTail]
    exact yields_keep
  | cons t ts =>
    rw [armTail, if_neg (kind_ne_of_startsWith hne)]
    exact yields_keep

theorem yields_bindingName {binding : Option String} (ht : t.kind = .symbol .leftParen)
    (hs : Spelled ts (binding.toList.map .name) (t :: rest)) :
    (bindingName ts).Yields binding (t :: rest) := by
  cases binding with
  | none =>
    obtain rfl := Spelled.nil_iff.mp hs
    rw [bindingName, if_neg (by rw [ht]; decide)]
    exact yields_keep
  | some name =>
    obtain ⟨ident, rfl, hident, rfl⟩ := Spelled.loneName hs
    rw [bindingName, if_pos hident]
    exact yields_keep.widen

theorem arms_cons {binding : Option String} {filters : List Expr} {arms : List Arm}
    (hfilters : ParseAll finish filters) (hbody : BlockReads finish body)
    (harms : ArmsRead finish arms) : ArmsRead finish (.mk binding filters body t :: arms) := by
  intro ts rest hs hend
  obtain ⟨t', after, rfl, hkind, hs⟩ := Spelled.own hs
  obtain ⟨_, hspelledName, hs⟩ := Spelled.append_iff.mp hs
  obtain ⟨opening, ts₁, rfl, hopening, hs⟩ := hs.symbol
  obtain ⟨_, hspelled, hs⟩ := Spelled.append_iff.mp hs
  obtain ⟨closing, ts₂, rfl, hclosing, hs⟩ := hs.symbol
  obtain ⟨ts₃, hspelledBody, hs⟩ := Spelled.append_iff.mp hs
  obtain ⟨hat, arms', hbareArms, hyArms⟩ := harms ts₃ rest hs hend
  obtain ⟨filters', hbareFilters, hyFilters⟩ :=
    yields_errorFilters (by rw [hclosing]; decide) (by rw [hclosing]; rfl) hfilters hspelled
  obtain ⟨body', hbareBody, hyBody⟩ := hbody ts₂ ts₃ hspelledBody hat
  refine ⟨atBlockEnd_of_kind hkind rfl, .mk binding filters' body' t' :: arms', ?_, ?_⟩
  · simp [hbareFilters, hbareBody, hbareArms]
  · rw [armTail, if_pos hkind]
    exact ((yields_bindingName hopening hspelledName).andThen
      ((yields_expect hopening).widen.andThen (hyFilters.widen.andThen
        ((yields_expect hclosing).widen.andThen (hyBody.andThen (hyArms.map _)))))).widen

theorem try_reads {arms : List Arm} (hbody : BlockReads finish body) (hne : arms ≠ [])
    (harms : ArmsRead finish arms) : StmtReads finish (.try_ body arms t) := by
  intro ts rest hs
  obtain ⟨t', after, rfl, hkind, hs⟩ := Spelled.own hs
  obtain ⟨mid, hspelledBody, hs⟩ := Spelled.append_iff.mp hs
  obtain ⟨_, hspelled, hs⟩ := Spelled.append_iff.mp hs
  obtain ⟨closing, rfl, hclosing⟩ := hs.loneKeyword
  obtain ⟨hat, arms', hbareArms, hyArms⟩ := harms mid _ hspelled
    (endsBefore_of_kind hclosing rfl (by decide))
  obtain ⟨body', hbareBody, hyBody⟩ := hbody after mid hspelledBody hat
  refine ⟨startsStmt_of_kind hkind rfl (by decide),
    .try_ body' arms' t', by simp [hbareBody, hbareArms], ?_⟩
  rw [stmt, hkind]
  refine hyBody.andThen (hyArms.andThen ?_)
  -- As many handlers are read as there are words of, so there is one.
  cases arms' with
  | nil =>
    cases arms with
    | nil => exact absurd rfl hne
    | cons arm arms =>
      cases arm
      cases hbareArms
  | cons arm' arms' =>
    rw [List.isEmpty_cons, if_neg Bool.false_ne_true]
    exact (yields_expect hclosing).widen.map _

end MooScript.Grammar
