import MooScript.Proofs.Syntax.Lookahead.Sequence

/-! The rules for expressions look one token ahead. -/
namespace MooScript.Grammar

open Reading Run MooScript.Expr

variable {finish t : Token} {n k : Nat} {ts : List Token} {e : Expr} {level : Level}

theorem expr_ready : Ready endsExpr (.ofRule expr) [zeroToken] := rule_ready (Nat.zero_le 9)

theorem atom_ready : Ready endsExpr (.ofRule atom) [zeroToken] := rule_ready (Nat.le_refl 9)

section Call

variable {r : Token → (ts : List Token) → Tail Expr ts} {f : List Expr → Expr}
  (hr : ∀ finish ts, ofTail r finish ts =
    if startsWith (.symbol .leftParen) ts then (ofRule arguments).map f finish ts else .ok (e, ts))
include hr

theorem call_ready : Ready endsExpr (.ofTail r) [] := by
  refine .ofTail (.keep fun finish rest h => ⟨e, ?_⟩)
  rw [hr, startsWith_of_stops h.stops]
  rfl

theorem call_decided (hexpr : DecidedBelow finish n) (hn : ts.length ≤ n) :
    Decided endsExpr (.ofTail r) finish ts := by
  have hready := call_ready hr
  cases ts with
  | nil => exact .kept_nil hready.toFinishes (hr finish [])
  | cons t ts =>
    by_cases ht : t.kind = .symbol .leftParen
    · have hstarts : ∀ rest, startsWith (.symbol .leftParen) (t :: rest) = true :=
        fun _ => beq_iff_eq.mpr ht
      refine .peek_cons hready (fun finish rest => ?_)
        (((arguments_decided hexpr hn).mono fun _ _ => rfl).map f)
      rw [hr, if_pos (hstarts rest)]
    · have hstarts : ∀ rest, startsWith (.symbol .leftParen) (t :: rest) = false :=
        fun _ => beq_eq_false_iff_ne.mpr ht
      refine .kept hready.toFinishes (a := e) fun finish rest => ?_
      rw [hr, hstarts]
      rfl

end Call

theorem callTail_run {callee : Expr} (finish : Token) (ts : List Token) :
    ofTail (callTail · callee t) finish ts =
      if startsWith (.symbol .leftParen) ts then
        (ofRule arguments).map (.call callee · t) finish ts else .ok (callee, ts) := by
  rw [ofTail, callTail]
  split
  · rw [outcome_map, outcome_widen]
    rfl
  · rfl

theorem systemTail_run {name : String} (finish : Token) (ts : List Token) :
    ofTail (systemTail · name t) finish ts =
      if startsWith (.symbol .leftParen) ts then
        (ofRule arguments).map (.verbCall (.literal (.object 0) t) name · t) finish ts
      else .ok (.property (.literal (.object 0) t) name t, ts) := by
  rw [ofTail, systemTail]
  split
  · rw [outcome_map, outcome_widen]
    rfl
  · rfl

section Atom

theorem atom_run_identifier (ht : t.kind = .identifier) :
    behind [t] (ofRule atom) = ofTail (callTail · (.identifier t.text t) t) := by
  funext finish ts
  rw [behind, List.singleton_append, ofRule, atom, ht]
  rfl

theorem atom_run_grouping (ht : t.kind = .symbol .leftParen) :
    behind [t] (ofRule atom) = (ofRule expr).bind fun inner =>
      (ofRule (expect · (.symbol .rightParen))).bind fun _ =>
        ofTail (callTail · (.grouping inner t) t) := by
  funext finish ts
  rw [behind, List.singleton_append, ofRule, atom, ht]
  dsimp only [List.length_cons]
  simp only [outcome_andThen, outcome_widen]
  rfl

theorem atom_run_system (ht : t.kind = .symbol .dollar) :
    behind [t] (ofRule atom) =
      (ofRule (expect · .identifier)).bind fun name => ofTail (systemTail · name.text t) := by
  funext finish ts
  rw [behind, List.singleton_append, ofRule, atom, ht]
  dsimp only [List.length_cons]
  simp only [outcome_andThen, outcome_widen]
  rfl

theorem atom_run_list (ht : t.kind = .symbol .leftBrace) :
    behind [t] (ofRule atom) = (ofRule (listTail · .rightBrace)).map (.list · t) := by
  funext finish ts
  rw [behind, List.singleton_append, ofRule, atom, ht]
  dsimp only [List.length_cons]
  simp only [outcome_map, outcome_widen]
  rfl

theorem atom_run_object (ht : t.kind = .symbol .hash) :
    behind [t] (ofRule atom) = (ofRule objectNumber).map fun id => .literal (.object id) t := by
  funext finish ts
  rw [behind, List.singleton_append, ofRule, atom, ht]
  dsimp only [List.length_cons]
  simp only [outcome_map, outcome_widen]
  rfl

theorem atom_run_range (ht : t.kind = .symbol .leftBracket) :
    behind [t] (ofRule atom) = (ofRule expr).bind fun first =>
      (ofRule (expect · (.symbol .dotDot))).bind fun _ => (ofRule expr).bind fun last =>
        (ofRule (expect · (.symbol .rightBracket))).map fun _ => .range first last t := by
  funext finish ts
  rw [behind, List.singleton_append, ofRule, atom, ht]
  dsimp only [List.length_cons]
  simp only [outcome_andThen, outcome_map, outcome_widen]
  rfl

theorem atom_run_recover (ht : t.kind = .symbol .backtick) :
    behind [t] (ofRule atom) = (ofRule expr).bind fun body =>
      (ofRule (expect · (.symbol .bang))).bind fun _ => (ofRule errorFilters).bind fun filters =>
        (ofRule (expect · (.symbol .fatArrow))).bind fun _ => (ofRule expr).bind fun alternative =>
          (ofRule (expect · (.symbol .quote))).map fun _ =>
            .recover body filters alternative t := by
  funext finish ts
  rw [behind, List.singleton_append, ofRule, atom, ht]
  dsimp only [List.length_cons]
  simp only [outcome_andThen, outcome_map, outcome_widen]
  rfl

theorem atom_of_literal {rest : List Token}
    (ht : t.kind = .integer ∨ t.kind = .float ∨ t.kind = .string) :
    ofRule atom finish (t :: rest) = match Syntax.literalValue? t with
      | some value => .ok (.literal value t, rest)
      | none => .error (.unexpectedToken (.kind t.kind) t) := by
  rcases ht with ht | ht | ht
  all_goals
    rw [ofRule, atom, ht]
    dsimp only
    cases Syntax.literalValue? t <;> rfl

theorem atom_decided_of_literal (ht : t.kind = .integer ∨ t.kind = .float ∨ t.kind = .string) :
    Decided endsExpr (.ofRule atom) finish (t :: ts) := by
  cases hvalue : Syntax.literalValue? t with
  | some value => exact .taken fun _ _ => by rw [atom_of_literal ht, hvalue]
  | none =>
    refine .blamed atom_ready.toFinishes (.inl ⟨.kind t.kind, rfl⟩) fun _ _ => ?_
    rw [atom_of_literal ht, hvalue]

variable (hexpr : DecidedBelow finish n)
include hexpr

theorem grouping_decided (ht : t.kind = .symbol .leftParen) (hn : ts.length < n) :
    Decided endsExpr (.ofRule atom) finish (t :: ts) := by
  refine .cons (atom_run_grouping ht ▸ ?_)
  refine (hexpr ts hn).bind (fun inner rest h => ?_)
    (fun _ _ => .expect_bind rfl fun _ => call_ready callTail_run) fun _ _ => ends_cons rfl
  have hrest := takes_ofRule _ h
  refine .expect_bind rfl (fun _ => call_ready callTail_run) fun _ rest' _ => ?_
  exact call_decided callTail_run hexpr (by omega)

theorem range_decided (ht : t.kind = .symbol .leftBracket) (hn : ts.length < n) :
    Decided anyKind (.ofRule atom) finish (t :: ts) := by
  have hclose : ∀ first last : Expr, Ready anyKind
      ((ofRule (expect · (.symbol .rightBracket))).map fun _ => Expr.range first last t) _ :=
    fun first last => (expect_ready rfl).map _
  have hlast : ∀ first : Expr, Ready anyKind _ _ := fun first =>
    expr_ready.bind (hclose first) fun _ _ => ends_cons rfl
  refine .cons (atom_run_range ht ▸ ?_)
  refine (hexpr ts hn).bind (fun first rest h => ?_)
    (fun first _ => .expect_bind rfl fun _ => hlast first) fun _ _ => ends_cons rfl
  have hrest := takes_ofRule _ h
  refine .expect_bind rfl (fun _ => hlast first) fun _ rest' _ => ?_
  refine (hexpr rest' (by omega)).bind (fun last _ _ => ?_) (fun last _ => hclose first last)
    fun _ _ => ends_cons rfl
  exact (expect_decided rfl).map _

theorem recover_decided (ht : t.kind = .symbol .backtick) (hn : ts.length < n) :
    Decided anyKind (.ofRule atom) finish (t :: ts) := by
  have hclose : ∀ (body : Expr) (filters : List Expr) (alternative : Expr), Ready anyKind
      ((ofRule (expect · (.symbol .quote))).map fun _ =>
        Expr.recover body filters alternative t) _ :=
    fun body filters alternative => (expect_ready rfl).map _
  have halternative : ∀ (body : Expr) (filters : List Expr), Ready anyKind
      ((ofRule (expect · (.symbol .fatArrow))).bind fun _ => (ofRule expr).bind fun alternative =>
        (ofRule (expect · (.symbol .quote))).map fun _ =>
          Expr.recover body filters alternative t) _ :=
    fun body filters => .expect_bind rfl fun _ =>
      expr_ready.bind (hclose body filters) fun _ _ => ends_cons rfl
  have hfilters : ∀ body : Expr, Ready anyKind _ _ := fun body =>
    errorFilters_ready.bind (halternative body) fun _ _ => ends_anyKind
  refine .cons (atom_run_recover ht ▸ ?_)
  refine (hexpr ts hn).bind (fun body rest h => ?_)
    (fun body _ => .expect_bind rfl fun _ => hfilters body) fun _ _ => ends_cons rfl
  have hrest := takes_ofRule _ h
  refine .expect_bind rfl (fun _ => hfilters body) fun _ rest₁ _ => ?_
  refine (errorFilters_decided hexpr (by omega)).bind (fun filters rest₂ h => ?_)
    (fun filters _ => halternative body filters) fun _ _ => ends_cons rfl
  have hrest₂ := takes_ofRule _ h
  refine .expect_bind rfl (fun _ => expr_ready.bind (hclose body filters) fun _ _ => ends_cons rfl)
    fun _ rest₃ _ => ?_
  refine (hexpr rest₃ (by omega)).bind (fun alternative _ _ => ?_)
    (fun alternative _ => hclose body filters alternative) fun _ _ => ends_cons rfl
  exact (expect_decided rfl).map _

theorem atom_decided (hn : ts.length ≤ n) : Decided endsExpr (.ofRule atom) finish ts := by
  have hready := atom_ready.toFinishes
  cases ts with
  | nil =>
    refine .ended hready .expression ?_
    rw [ofRule, atom]
    rfl
  | cons t ts =>
    cases hkind : t.kind with
    | identifier =>
      exact .cons (atom_run_identifier hkind ▸ call_decided callTail_run hexpr (Nat.le_of_lt hn))
    | integer => exact atom_decided_of_literal (.inl hkind)
    | float => exact atom_decided_of_literal (.inr (.inl hkind))
    | string => exact atom_decided_of_literal (.inr (.inr hkind))
    | keyword k =>
      cases k with
      | true_ =>
        refine .taken (a := .literal (.boolean true) t) fun _ _ => ?_
        rw [ofRule, atom, hkind]
        rfl
      | false_ =>
        refine .taken (a := .literal (.boolean false) t) fun _ _ => ?_
        rw [ofRule, atom, hkind]
        rfl
      | _ =>
        refine .blamed hready (.inl ⟨.expression, rfl⟩) fun _ _ => ?_
        rw [ofRule, atom, hkind]
        rfl
    | symbol s =>
      cases s with
      | leftParen => exact grouping_decided hexpr hkind hn
      | leftBracket => exact (range_decided hexpr hkind hn).mono fun _ _ => rfl
      | backtick => exact (recover_decided hexpr hkind hn).mono fun _ _ => rfl
      | leftBrace =>
        exact .cons (atom_run_list hkind ▸
          ((listTail_decided hexpr rfl hn).mono fun _ _ => rfl).map _)
      | hash =>
        exact .cons (atom_run_object hkind ▸ (objectNumber_decided.mono fun _ _ => rfl).map _)
      | dollar =>
        refine .cons (atom_run_system hkind ▸ .expect_bind rfl (fun _ => call_ready systemTail_run)
          fun name rest hlt => ?_)
        have hts : ts.length < n := hn
        exact call_decided systemTail_run hexpr (by omega)
      | _ =>
        refine .blamed hready (.inl ⟨.expression, rfl⟩) fun _ _ => ?_
        rw [ofRule, atom, hkind]
        rfl
    | comment | eof =>
      refine .blamed hready (.inl ⟨.expression, rfl⟩) fun _ _ => ?_
      rw [ofRule, atom, hkind]
      rfl

end Atom

section Tail

theorem tail_kept {object : Expr}
    (h : ∀ finish rest, ofTail (tail · k object) finish (t :: rest) = .ok (object, t :: rest)) :
    Decided endsExpr (.ofTail (tail · k object)) finish (t :: ts) :=
  .kept tail_ready.toFinishes h

theorem tail_decided_nil {object : Expr} :
    Decided endsExpr (.ofTail (tail · k object)) finish [] :=
  .kept_nil tail_ready.toFinishes (tail_yields_of_stops stops_nil).outcome

theorem verbTail_opens {object : Expr} :
    Opens (.symbol .colon) (ofTail (tail · 8 object)) object := by
  constructor
  · intro finish
    rw [ofTail, tail, verbTail]
    rfl
  · intro finish t rest ht
    rw [ofTail, tail, verbTail, if_neg ht]
    rfl

theorem propertyTail_opens {object : Expr} :
    Opens (.symbol .dot) (ofTail (tail · 6 object)) object := by
  constructor
  · intro finish
    rw [ofTail, tail, propertyTail]
    rfl
  · intro finish t rest ht
    rw [ofTail, tail, propertyTail, if_neg ht]
    rfl

theorem assignmentTail_opens {left : Expr} :
    Opens (.symbol .equal) (ofTail (tail · 0 left)) left := by
  constructor
  · intro finish
    rw [ofTail, tail, assignmentTail]
    rfl
  · intro finish t rest ht
    rw [ofTail, tail, assignmentTail, if_neg ht]
    rfl

theorem verbTail_run {object : Expr} (ht : t.kind = .symbol .colon) :
    behind [t] (ofTail (tail · 8 object)) =
      (ofRule (expect · .identifier)).bind fun verb => (ofRule arguments).bind fun args =>
        ofTail (tail · 8 (.verbCall object verb.text args t)) := by
  funext finish ts
  rw [behind, List.singleton_append, ofTail, tail, verbTail, if_pos ht, outcome_widen]
  dsimp only [List.length_cons]
  simp only [outcome_andThen, outcome_widen]
  rfl

theorem propertyTail_run {object : Expr} (ht : t.kind = .symbol .dot) :
    behind [t] (ofTail (tail · 6 object)) =
      (ofRule (expect · .identifier)).bind fun name =>
        ofTail (tail · 6 (.property object name.text t)) := by
  funext finish ts
  rw [behind, List.singleton_append, ofTail, tail, propertyTail, if_pos ht, outcome_widen]
  dsimp only [List.length_cons]
  simp only [outcome_andThen, outcome_widen]
  rfl

theorem chainTail_run {left : Expr} {op : BinaryOp} (hop : level.operator? t.kind = some op) :
    behind [t] (ofTail (tail · level.tier left)) =
      (ofRule (rule · (level.tier + 1))).bind fun right =>
        ofTail (tail · level.tier (.binary op left right t)) := by
  funext finish ts
  rw [behind, List.singleton_append, ofTail, tail_level, chainTail, hop]
  dsimp only [List.length_cons]
  simp only [outcome_widen, operand_eq_rule, outcome_andThen, ← tail_level]
  rfl

theorem assignmentTail_run {left : Expr} (ht : t.kind = .symbol .equal)
    (hleft : left.name?.isSome = true) :
    behind [t] (ofTail (tail · 0 left)) = (ofRule expr).map fun right =>
      .binary .assign left right t := by
  funext finish ts
  rw [behind, List.singleton_append, ofTail, tail, assignmentTail, if_pos ht, if_pos hleft]
  simp only [outcome_widen, outcome_map]
  rfl

variable (hexpr : DecidedBelow finish n)
include hexpr

theorem verbTail_decided (object : Expr) (ts : List Token) (hn : ts.length ≤ n) :
    Decided endsExpr (.ofTail (tail · 8 object)) finish ts := by
  refine verbTail_opens.decided rfl fun t rest hts ht => ?_
  subst hts
  have hrest : rest.length < n := hn
  have harguments : ∀ verb : Token, Ready endsExpr ((ofRule arguments).bind fun args =>
      ofTail (tail · 8 (.verbCall object verb.text args t))) _ := fun verb =>
    arguments_ready.bind (fun _ => tail_ready) fun _ _ => ends_anyKind
  rw [verbTail_run ht]
  refine .expect_bind rfl harguments fun verb mid hlt => ?_
  refine (arguments_decided hexpr (by omega)).bind (fun args rest' h => ?_) (fun _ _ => tail_ready)
    fun _ _ => ends_anyKind
  have hrest' := takes_ofRule _ h
  exact verbTail_decided _ rest' (by omega)
termination_by ts.length
decreasing_by
  subst_vars
  simp only [List.length_cons]
  omega

omit hexpr in
theorem propertyTail_decided (object : Expr) (ts : List Token) :
    Decided endsExpr (.ofTail (tail · 6 object)) finish ts := by
  refine propertyTail_opens.decided rfl fun t rest hts ht => ?_
  rw [propertyTail_run ht]
  refine .expect_bind rfl (fun _ => tail_ready) fun name rest' hlt => ?_
  exact propertyTail_decided _ rest'
termination_by ts.length
decreasing_by
  subst_vars
  exact Nat.lt_succ_of_lt hlt

omit hexpr in
theorem chainTail_decided (level : Level) (hoperand : ∀ ts : List Token, ts.length ≤ n →
      Decided endsExpr (.ofRule (rule · (level.tier + 1))) finish ts)
    (left : Expr) (ts : List Token) (hn : ts.length ≤ n) :
    Decided endsExpr (.ofTail (tail · level.tier left)) finish ts := by
  match ts, hn with
  | [], _ => exact tail_decided_nil
  | t :: ts, hn =>
    cases hop : level.operator? t.kind with
    | some op =>
      have hts : ts.length < n := hn
      refine .cons (chainTail_run hop ▸ ?_)
      refine (hoperand ts (by omega)).bind (fun right rest h => ?_) (fun _ _ => tail_ready)
        fun _ h => h
      have hrest := takes_ofRule _ h
      exact chainTail_decided level hoperand _ rest (by omega)
    | none =>
      refine tail_kept fun finish rest => ?_
      rw [ofTail, tail_level, chainTail, hop]
      rfl
termination_by ts.length
decreasing_by
  simp only [List.length_cons]
  omega

/-- An equals sign behind anything but a name is blamed, though it is not what is reported. -/
theorem assignmentTail_decided (left : Expr) (hn : ts.length ≤ n) :
    Decided endsExpr (.ofTail (tail · 0 left)) finish ts := by
  cases hleft : left.name?.isSome with
  | true =>
    refine assignmentTail_opens.decided rfl fun t rest hts ht => ?_
    subst hts
    rw [assignmentTail_run ht hleft]
    exact (hexpr rest hn).map _
  | false =>
    cases ts with
    | nil => exact tail_decided_nil
    | cons t ts =>
      by_cases ht : t.kind = .symbol .equal
      · refine .blamed tail_ready.toFinishes (.inr ⟨ht, left.token, rfl⟩) fun finish rest => ?_
        rw [ofTail, tail, assignmentTail, if_pos ht, hleft]
        rfl
      · exact tail_kept fun finish rest => assignmentTail_opens.cons finish t rest ht

end Tail

theorem unary_run {op : UnaryOp} (hop : unaryOperator? t.kind = some op) :
    behind [t] (ofRule (rule · 7)) = (ofRule (rule · 7)).map (.unary op · t) := by
  funext finish rest
  rw [behind, List.singleton_append, ofRule, rule, unary, hop]
  dsimp only [List.length_cons]
  simp only [outcome_map, outcome_widen]
  rfl

theorem unary_of_none {rest : List Token} (hop : unaryOperator? t.kind = none) :
    ofRule (rule · 7) finish (t :: rest) = ofRule (rule · 8) finish (t :: rest) := by
  rw [ofRule, rule, unary, hop]
  rfl

/-- Tiers with a tail of their own. -/
theorem rule_run (hk : k < 9) (hunary : k ≠ 7) :
    ofRule (rule · k) = (ofRule (rule · (k + 1))).bind fun left => ofTail (tail · k left) := by
  have hlevel : ∀ level : Level, ofRule (rule · level.tier) =
      (ofRule (rule · (level.tier + 1))).bind fun left => ofTail (tail · level.tier left) := by
    intro level
    funext finish ts
    rw [ofRule, rule_level, chain, outcome_andThen, operand_eq_rule, ← tail_level]
    rfl
  have hcases : k = 0 ∨ k = 1 ∨ k = 2 ∨ k = 3 ∨ k = 4 ∨ k = 5 ∨ k = 6 ∨ k = 8 := by omega
  rcases hcases with rfl | rfl | rfl | rfl | rfl | rfl | rfl | rfl
  · funext finish ts
    rw [ofRule, rule, expr, outcome_andThen]
    rfl
  · exact hlevel .disjunction
  · exact hlevel .conjunction
  · exact hlevel .comparison
  · exact hlevel .additive
  · exact hlevel .multiplicative
  · funext finish ts
    rw [ofRule, rule, property, outcome_andThen]
    rfl
  · funext finish ts
    rw [ofRule, rule, primary, outcome_andThen]
    rfl

section Tier

variable (hexpr : DecidedBelow finish n)
include hexpr

theorem tail_decided (hnext : ∀ ts : List Token, ts.length ≤ n →
      Decided endsExpr (.ofRule (rule · (k + 1))) finish ts)
    (left : Expr) (ts : List Token) (hn : ts.length ≤ n) :
    Decided endsExpr (.ofTail (tail · k left)) finish ts := by
  match k with
  | 0 => exact assignmentTail_decided hexpr left hn
  | 1 => exact chainTail_decided .disjunction hnext left ts hn
  | 2 => exact chainTail_decided .conjunction hnext left ts hn
  | 3 => exact chainTail_decided .comparison hnext left ts hn
  | 4 => exact chainTail_decided .additive hnext left ts hn
  | 5 => exact chainTail_decided .multiplicative hnext left ts hn
  | 6 => exact propertyTail_decided left ts
  | 7 =>
    cases ts with
    | nil => exact tail_decided_nil
    | cons t ts => exact tail_kept fun _ _ => rfl
  | 8 => exact verbTail_decided hexpr left ts hn
  | k + 9 =>
    cases ts with
    | nil => exact tail_decided_nil
    | cons t ts => exact tail_kept fun _ _ => rfl

theorem rule_decided_of_next (hk : k < 9) (hunary : k ≠ 7)
    (hnext : ∀ ts : List Token, ts.length ≤ n →
      Decided endsExpr (.ofRule (rule · (k + 1))) finish ts) (hn : ts.length ≤ n) :
    Decided endsExpr (.ofRule (rule · k)) finish ts := by
  rw [rule_run hk hunary]
  refine (hnext ts hn).bind (fun left rest h => ?_) (fun _ _ => tail_ready) fun _ h => h
  have hrest := takes_ofRule _ h
  exact tail_decided hexpr hnext left rest (by omega)

theorem primary_decided (hn : ts.length ≤ n) :
    Decided endsExpr (.ofRule (rule · 8)) finish ts :=
  rule_decided_of_next hexpr (by decide) (by decide) (fun _ hn => atom_decided hexpr hn) hn

theorem unary_decided (hn : ts.length ≤ n) : Decided endsExpr (.ofRule (rule · 7)) finish ts := by
  have hready : Ready endsExpr (.ofRule (rule · 7)) [zeroToken] := rule_ready (by decide)
  induction ts with
  | nil =>
    refine .peek_nil hready (fun finish => ?_) (primary_decided hexpr hn)
    rw [ofRule, rule, unary]
    rfl
  | cons t ts ih =>
    cases hop : unaryOperator? t.kind with
    | none => exact .peek_cons hready (fun _ _ => unary_of_none hop) (primary_decided hexpr hn)
    | some op => exact .cons (unary_run hop ▸ (ih (Nat.le_of_lt hn)).map _)

/-- From the tightest rule to the loosest. -/
theorem rule_decided (k : Nat) (ts : List Token) (hn : ts.length ≤ n) :
    Decided endsExpr (.ofRule (rule · k)) finish ts := by
  by_cases hk : k < 9
  · by_cases hunary : k = 7
    · exact hunary ▸ unary_decided hexpr hn
    · exact rule_decided_of_next hexpr hk hunary (fun ts hn => rule_decided (k + 1) ts hn) hn
  · obtain ⟨j, rfl⟩ := Nat.exists_eq_add_of_le (Nat.le_of_not_lt hk)
    rw [Nat.add_comm]
    exact atom_decided hexpr hn
termination_by 9 - k

end Tier

theorem decidedBelow (n : Nat) : DecidedBelow finish n := by
  induction n with
  | zero => exact fun ts hn => absurd hn (Nat.not_lt_zero _)
  -- Inside an atom and behind an equals sign there are fewer tokens, to which `ih` applies.
  | succ n ih => exact fun ts hn => rule_decided ih 0 ts (Nat.le_of_lt_succ hn)

theorem expr_decided : Decided endsExpr (.ofRule expr) finish ts :=
  decidedBelow (ts.length + 1) ts (Nat.lt_succ_self _)

end MooScript.Grammar
