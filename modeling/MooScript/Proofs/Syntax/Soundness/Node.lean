import MooScript.Proofs.Syntax.Respelling
import MooScript.Proofs.Syntax.Tokens

/-! Expressions that tokens tell, made of the expressions that stretches of them tell. -/
namespace MooScript.Expr

variable {P : Token → Prop} {k k' : Nat} {before ts rest : List Token} {e left right : Expr}
  {es args : List Expr} {t name : Token}

/-- The tokens of `ts` up to `rest` tell `e`, which is of tier `k` at least; the tokens it keeps
have the property `P`. -/
structure IsRead (P : Token → Prop) (k : Nat) (ts : List Token) (e : Expr) (rest : List Token) :
    Prop where
  respelled : Respelled ts e.words rest
  conformant : e.Conformant
  tier_le : k ≤ e.tier
  kept : ∀ t ∈ e.tokens, P t

/-- The same of expressions with commas between them and of the words that they make. -/
structure AreRead (P : Token → Prop) (ts : List Token) (ws : List Word) (es : List Expr)
    (rest : List Token) : Prop where
  respelled : Respelled ts ws rest
  conformant : AllConformant es
  kept : ∀ t ∈ tokensAll es, P t

theorem IsRead.mono (h : e.IsRead P k ts rest) (hk : k' ≤ k) : e.IsRead P k' ts rest :=
  { h with tier_le := Nat.le_trans hk h.tier_le }

theorem IsRead.binary {level : Grammar.Level} {op : BinaryOp}
    (hop : level.operator? t.kind = some op) (ht : P t)
    (hleft : left.IsRead P level.tier before (t :: ts))
    (hright : right.IsRead P (level.tier + 1) ts rest) :
    (Expr.binary op left right t).IsRead P level.tier before rest := by
  obtain ⟨hkind, htier⟩ := Grammar.Level.operator?_eq_some_iff.mp hop
  refine ⟨hleft.respelled.append (.own hkind hright.respelled), ?_, Nat.le_of_eq htier.symm, ?_⟩
  · rw [conformant_binary (htier ▸ level.tier_pos), htier]
    exact ⟨hleft.tier_le, hright.tier_le, hleft.conformant, hright.conformant⟩
  · exact Token.forall_mem_node ht hleft.kept hright.kept

theorem IsRead.assign (hkind : t.kind = .symbol .equal) (hname : left.name?.isSome = true)
    (ht : P t) (hleft : left.IsRead P k before (t :: ts)) (hright : right.IsRead P 0 ts rest) :
    (Expr.binary .assign left right t).IsRead P 0 before rest := by
  have hconformant : (Expr.binary .assign left right t).Conformant :=
    ⟨hname, hleft.conformant, hright.conformant⟩
  have hkept := Token.forall_mem_node ht hleft.kept hright.kept
  exact ⟨hleft.respelled.append (.own hkind hright.respelled), hconformant, Nat.zero_le _, hkept⟩

theorem IsRead.property (hkind : t.kind = .symbol .dot) (hname : name.kind = .identifier)
    (ht : P t) (h : e.IsRead P 6 before (t :: name :: rest)) :
    (Expr.property e name.text t).IsRead P 6 before rest := by
  have hsystem := h.conformant.isSystem_eq_false
  refine ⟨?_, .inr ⟨h.tier_le, h.conformant⟩, ?_, List.forall_mem_cons.mpr ⟨ht, h.kept⟩⟩
  · rw [words, hsystem]
    exact h.respelled.append (.own hkind (.name hname .nil))
  · rw [tier, hsystem]
    decide

theorem isSystem_dollar (hkind : t.kind = .symbol .dollar) :
    (Expr.literal (.object 0) t).isSystem = true := by
  rw [isSystem, hkind]
  rfl

theorem isRead_systemProperty (hkind : t.kind = .symbol .dollar) (hname : name.kind = .identifier)
    (ht : P t) :
    (Expr.property (.literal (.object 0) t) name.text t).IsRead P 9 (t :: name :: rest) rest := by
  have hsystem := isSystem_dollar hkind
  refine ⟨?_, .inl hsystem, ?_, ?_⟩
  · rw [words, hsystem]
    exact .own hkind (.name hname .nil)
  · rw [tier, hsystem]
    decide
  · exact List.forall_mem_cons.mpr ⟨ht, List.forall_mem_singleton.mpr ht⟩

theorem IsRead.unary {op : UnaryOp} (hkind : t.kind = .symbol op.symbol) (ht : P t)
    (h : e.IsRead P 7 ts rest) : (Expr.unary op e t).IsRead P 7 (t :: ts) rest :=
  ⟨.own hkind h.respelled, ⟨h.tier_le, h.conformant⟩, Nat.le_refl 7,
    List.forall_mem_cons.mpr ⟨ht, h.kept⟩⟩

theorem IsRead.grouping {closing : Token} (hkind : t.kind = .symbol .leftParen) (ht : P t)
    (hclosing : closing.kind = .symbol .rightParen) (h : e.IsRead P 0 ts (closing :: rest)) :
    (Expr.grouping e t).IsRead P 9 (t :: ts) rest :=
  ⟨.own hkind (h.respelled.append (.symbol hclosing .nil)), h.conformant, Nat.le_refl 9,
    List.forall_mem_cons.mpr ⟨ht, h.kept⟩⟩

theorem isRead_identifier (hkind : t.kind = .identifier) (ht : P t) :
    (Expr.identifier t.text t).IsRead P 9 (t :: rest) rest :=
  ⟨.name hkind .nil, trivial, Nat.le_refl 9, List.forall_mem_singleton.mpr ht⟩

/-- Of any value but an object. -/
theorem isRead_literal {value : Value} (hdenotes : Denotes t value)
    (hvalue : ∀ id, value ≠ .object id) (ht : P t) :
    (Expr.literal value t).IsRead P 9 (t :: rest) rest := by
  refine ⟨?_, hdenotes, Nat.le_refl 9, List.forall_mem_singleton.mpr ht⟩
  cases value with
  | object id => exact absurd rfl (hvalue id)
  | _ => exact .own rfl .nil

theorem isRead_object {number : Token} {id : ObjectId} (hkind : t.kind = .symbol .hash)
    (hnumber : number.kind = .integer) (hid : Syntax.objectId? false number = some id)
    (ht : P t) : (Expr.literal (.object id) t).IsRead P 9 (t :: number :: rest) rest := by
  refine ⟨?_, .inr (.inr (.inr ⟨hkind, id, rfl⟩)), Nat.le_refl 9, List.forall_mem_singleton.mpr ht⟩
  have hspelled := Respelled.object hkind hnumber hid (Respelled.nil : Respelled rest [] rest)
  rwa [List.append_nil] at hspelled

theorem isRead_negativeObject {minus number : Token} {id : ObjectId}
    (hkind : t.kind = .symbol .hash) (hminus : minus.kind = .symbol .minus)
    (hnumber : number.kind = .integer) (hid : Syntax.objectId? true number = some id)
    (ht : P t) : (Expr.literal (.object id) t).IsRead P 9 (t :: minus :: number :: rest) rest := by
  refine ⟨?_, .inr (.inr (.inr ⟨hkind, id, rfl⟩)), Nat.le_refl 9, List.forall_mem_singleton.mpr ht⟩
  have hspelled := Respelled.negativeObject hkind hminus hnumber hid
    (Respelled.nil : Respelled rest [] rest)
  rwa [List.append_nil] at hspelled

theorem areRead_nil {closing : Symbol} (hkind : t.kind = .symbol closing) :
    AreRead P (t :: rest) [.symbol closing] [] rest :=
  ⟨.symbol hkind .nil, trivial, List.forall_mem_nil P⟩

theorem areRead_comma {closing : Symbol} {comma : Token} (hcomma : comma.kind = .symbol .comma)
    (hclosing : closing = .rightBrace ∨ closing = .rightParen) (hkind : t.kind = .symbol closing) :
    AreRead P (comma :: t :: rest) [.symbol closing] [] rest :=
  ⟨.comma hcomma hclosing hkind .nil, trivial, List.forall_mem_nil P⟩

theorem areRead_none : AreRead P rest [] [] rest :=
  ⟨.nil, trivial, List.forall_mem_nil P⟩

theorem areRead_any (hkind : t.kind = .keyword .any) :
    AreRead P (t :: rest) (filterWords []) [] rest :=
  ⟨.keyword hkind .nil, trivial, List.forall_mem_nil P⟩

theorem IsRead.cons {mid : List Token} {ws : List Word} (h : e.IsRead P k ts mid)
    (hes : AreRead P mid ws es rest) : AreRead P ts (e.words ++ ws) (e :: es) rest :=
  ⟨h.respelled.append hes.respelled, ⟨h.conformant, hes.conformant⟩,
    List.forall_mem_append.mpr ⟨h.kept, hes.kept⟩⟩

theorem AreRead.behind {s : Symbol} {ws : List Word} (hkind : t.kind = .symbol s)
    (h : AreRead P ts ws es rest) : AreRead P (t :: ts) (.symbol s :: ws) es rest :=
  { h with respelled := .symbol hkind h.respelled }

theorem AreRead.list (hkind : t.kind = .symbol .leftBrace) (ht : P t)
    (h : AreRead P ts (wordsAll es ++ [.symbol .rightBrace]) es rest) :
    (Expr.list es t).IsRead P 9 (t :: ts) rest :=
  ⟨.own hkind h.respelled, h.conformant, Nat.le_refl 9, List.forall_mem_cons.mpr ⟨ht, h.kept⟩⟩

theorem IsRead.range {dots closing : Token} {mid : List Token}
    (hkind : t.kind = .symbol .leftBracket) (ht : P t) (hdots : dots.kind = .symbol .dotDot)
    (hclosing : closing.kind = .symbol .rightBracket) (hleft : left.IsRead P 0 ts (dots :: mid))
    (hright : right.IsRead P 0 mid (closing :: rest)) :
    (Expr.range left right t).IsRead P 9 (t :: ts) rest := by
  have hlast : Respelled mid (right.words ++ [.symbol .rightBracket]) rest :=
    hright.respelled.append (.symbol hclosing .nil)
  have hkept := Token.forall_mem_node ht hleft.kept hright.kept
  exact ⟨.own hkind (hleft.respelled.append (.symbol hdots hlast)),
    ⟨hleft.conformant, hright.conformant⟩, Nat.le_refl 9, hkept⟩

theorem IsRead.call (hcallee : e.isCallee = true) (h : e.IsRead P k before ts) (ht : P t)
    (hargs : AreRead P ts (argumentWords args) args rest) :
    (Expr.call e args t).IsRead P 9 before rest := by
  have hkept := Token.forall_mem_node ht h.kept hargs.kept
  exact ⟨h.respelled.append hargs.respelled, ⟨hcallee, h.conformant, hargs.conformant⟩,
    Nat.le_refl 9, hkept⟩

theorem IsRead.verbCall (hkind : t.kind = .symbol .colon) (hname : name.kind = .identifier)
    (ht : P t) (h : e.IsRead P 8 before (t :: name :: ts))
    (hargs : AreRead P ts (argumentWords args) args rest) :
    (Expr.verbCall e name.text args t).IsRead P 8 before rest := by
  have hsystem := h.conformant.isSystem_eq_false
  refine ⟨?_, ⟨.inr ⟨h.tier_le, h.conformant⟩, hargs.conformant⟩, ?_, ?_⟩
  · rw [words, hsystem]
    exact h.respelled.append (.own hkind (.name hname hargs.respelled))
  · rw [tier, hsystem]
    decide
  · exact Token.forall_mem_node ht h.kept hargs.kept

theorem AreRead.systemCall (hkind : t.kind = .symbol .dollar) (hname : name.kind = .identifier)
    (ht : P t) (hargs : AreRead P ts (argumentWords args) args rest) :
    (Expr.verbCall (.literal (.object 0) t) name.text args t).IsRead P 9 (t :: name :: ts)
      rest := by
  have hsystem := isSystem_dollar hkind
  refine ⟨?_, ⟨.inl hsystem, hargs.conformant⟩, ?_, ?_⟩
  · rw [words, hsystem]
    exact .own hkind (.name hname hargs.respelled)
  · rw [tier, hsystem]
    decide
  · exact List.forall_mem_cons.mpr ⟨ht, List.forall_mem_cons.mpr ⟨ht, hargs.kept⟩⟩

theorem IsRead.recover {bang arrow quote : Token} {mid mid' : List Token} {filters : List Expr}
    (hkind : t.kind = .symbol .backtick) (ht : P t) (hbang : bang.kind = .symbol .bang)
    (harrow : arrow.kind = .symbol .fatArrow) (hquote : quote.kind = .symbol .quote)
    (hbody : left.IsRead P 0 ts (bang :: mid))
    (hfilters : AreRead P mid (filterWords filters) filters (arrow :: mid'))
    (halternative : right.IsRead P 0 mid' (quote :: rest)) :
    (Expr.recover left filters right t).IsRead P 9 (t :: ts) rest := by
  have hlast : Respelled mid' (right.words ++ [.symbol .quote]) rest :=
    halternative.respelled.append (.symbol hquote .nil)
  have hmid : Respelled mid (filterWords filters ++
      .symbol .fatArrow :: (right.words ++ [.symbol .quote])) rest :=
    hfilters.respelled.append (.symbol harrow hlast)
  have hkept := Token.forall_mem_node ht hbody.kept
    (List.forall_mem_append.mpr ⟨hfilters.kept, halternative.kept⟩)
  exact ⟨.own hkind (hbody.respelled.append (.symbol hbang hmid)),
    ⟨hbody.conformant, hfilters.conformant, halternative.conformant⟩, Nat.le_refl 9, hkept⟩

end MooScript.Expr
