import MooScript.Proofs.Decimal.Digits
import MooScript.Proofs.Syntax.Completeness.Sequence

/-! Expressions read back from their words, if their parts are. -/
namespace MooScript.Expr

open Grammar Reading

variable {finish t : Token} {ts rest : List Token} {e left right object : Expr} {args : List Expr}

theorem continues_binary {op : BinaryOp} {level : Level} (hlevel : level.tier = op.tier)
    (hleft : Continues finish op.tier left) (hright : Parses finish (op.tier + 1) right) :
    Continues finish op.tier (.binary op left right t) := by
  intro ts mid hs hstop
  rw [words] at hs
  obtain ⟨_, hspelledLeft, hs⟩ := Spelled.append_iff.mp hs
  obtain ⟨t', after, rfl, hkind, hspelledRight⟩ := hs.own
  have hjoin : t'.kind.joinTier? = some op.tier := hkind ▸ op.joinTier?_symbol
  obtain ⟨left', hbareLeft, hcontinue⟩ :=
    hleft ts _ hspelledLeft (stops_of_joinTier? hjoin (Nat.lt_succ_self _))
  obtain ⟨right', hbareRight, hy⟩ := hright after mid hspelledRight hstop
  refine ⟨.binary op left' right' t', by simp [hbareLeft, hbareRight],
    fun x rest hx => hcontinue x rest ?_⟩
  have hop : level.operator? t'.kind = some op :=
    Level.operator?_eq_some_iff.mpr ⟨hkind, hlevel.symm⟩
  -- Behind the right operand the chain goes on with the whole of it as its left operand.
  rw [← hlevel] at hy hx ⊢
  rw [tail_level] at hx ⊢
  rw [chainTail, hop]
  rw [← operand_eq_rule] at hy
  exact (hy.widen.andThen hx).widen

theorem parses_assign (hname : left.name?.isSome = true) (hleft : Continues finish 0 left)
    (hright : Parses finish 0 right) : Parses finish 0 (.binary .assign left right t) := by
  intro ts rest hs hstop
  rw [words] at hs
  obtain ⟨_, hspelledLeft, hs⟩ := Spelled.append_iff.mp hs
  obtain ⟨t', after, rfl, hkind, hspelledRight⟩ := hs.own
  have hjoin : t'.kind.joinTier? = some 0 := hkind ▸ BinaryOp.joinTier?_symbol .assign
  obtain ⟨left', hbareLeft, hcontinue⟩ :=
    hleft ts _ hspelledLeft (stops_of_joinTier? hjoin Nat.zero_lt_one)
  obtain ⟨right', hbareRight, hy⟩ := hright after rest hspelledRight hstop
  refine ⟨.binary .assign left' right' t', by simp [hbareLeft, hbareRight],
    hcontinue _ rest ?_⟩
  have hname' : left'.name?.isSome = true := by rwa [← name?_bare, hbareLeft, name?_bare]
  have hequal : t'.kind = .symbol .equal := hkind
  rw [tail, assignmentTail, if_pos hequal, if_pos hname']
  exact (hy.widen.map _).widen

theorem parses_unary {op : UnaryOp} (h : Parses finish 7 e) :
    Parses finish 7 (.unary op e t) := by
  intro ts rest hs hstop
  rw [words] at hs
  obtain ⟨t', after, rfl, hkind, hs⟩ := hs.own
  obtain ⟨e', hbare, hy⟩ := h after rest hs hstop
  refine ⟨.unary op e' t', by simp [hbare], ?_⟩
  rw [rule, Grammar.unary, unaryOperator?_eq_some_iff.mpr hkind]
  exact hy.widen.map _

theorem continues_property {name : String} (hsystem : object.isSystem = false)
    (h : Continues finish 6 object) : Continues finish 6 (.property object name t) := by
  intro ts mid hs hstop
  rw [words, hsystem] at hs
  obtain ⟨_, hspelled, hs⟩ := Spelled.append_iff.mp hs
  obtain ⟨t', after, rfl, hkind, hs⟩ := hs.own
  obtain ⟨ident, rfl, hident, rfl⟩ := hs.loneName
  have hjoin : t'.kind.joinTier? = some 6 := by rw [hkind]; rfl
  obtain ⟨object', hbare, hcontinue⟩ :=
    h ts _ hspelled (stops_of_joinTier? hjoin (Nat.lt_succ_self 6))
  refine ⟨.property object' ident.text t', by simp [hbare],
    fun x rest hx => hcontinue x rest ?_⟩
  rw [tail] at hx ⊢
  rw [propertyTail, if_pos hkind]
  exact ((yields_expect hident).widen.andThen hx).widen

theorem continues_verbCall {verb : String} (hsystem : object.isSystem = false)
    (h : Continues finish 8 object) (hargs : ParseAll finish args) :
    Continues finish 8 (.verbCall object verb args t) := by
  intro ts mid hs hstop
  rw [words, hsystem] at hs
  obtain ⟨_, hspelled, hs⟩ := Spelled.append_iff.mp hs
  obtain ⟨t', after, rfl, hkind, hs⟩ := hs.own
  obtain ⟨ident, _, rfl, hident, rfl, hspelledArgs⟩ := hs.name
  have hjoin : t'.kind.joinTier? = some 8 := by rw [hkind]; rfl
  obtain ⟨object', hbare, hcontinue⟩ :=
    h ts _ hspelled (stops_of_joinTier? hjoin (Nat.lt_succ_self 8))
  obtain ⟨args', hbareArgs, hy⟩ := yields_arguments hargs hspelledArgs
  refine ⟨.verbCall object' ident.text args' t', by simp [hbare, hbareArgs],
    fun x rest hx => hcontinue x rest ?_⟩
  rw [tail] at hx ⊢
  rw [verbTail, if_pos hkind]
  exact ((yields_expect hident).widen.andThen (hy.widen.andThen hx)).widen

theorem startsWith_of_stops (h : Stops 9 ts) : startsWith (.symbol .leftParen) ts = false := by
  cases ts with
  | nil => rfl
  | cons t ts => exact beq_eq_false_iff_ne.mpr (h.kind_ne rfl (Nat.le_refl 9))

theorem startsWith_argumentWords (hs : Spelled ts (argumentWords args) rest) :
    startsWith (.symbol .leftParen) ts = true := by
  obtain ⟨t, mid, rfl, hkind, _⟩ := hs.symbol
  exact beq_iff_eq.mpr hkind

theorem eq_literal_of_isSystem (h : object.isSystem = true) :
    ∃ t, object = .literal (.object 0) t := by
  cases object with
  | literal value t =>
    cases value with
    | object id =>
      obtain ⟨hid, _⟩ := Bool.and_eq_true_iff.mp h
      exact ⟨t, by rw [beq_iff_eq.mp hid]⟩
    | _ => cases h
  | _ => cases h

theorem parses_systemProperty {name : String} (hsystem : object.isSystem = true) :
    Parses finish 9 (.property object name t) := by
  intro ts rest hs hstop
  rw [words, hsystem] at hs
  obtain ⟨t', after, rfl, hkind, hs⟩ := Spelled.own hs
  obtain ⟨ident, rfl, hident, rfl⟩ := hs.loneName
  obtain ⟨_, rfl⟩ := eq_literal_of_isSystem hsystem
  refine ⟨.property (.literal (.object 0) t') ident.text t', rfl, ?_⟩
  rw [rule_nine, atom, hkind]
  refine (yields_expect hident).widen.andThen ?_
  rw [systemTail, startsWith_of_stops hstop]
  exact yields_keep

theorem parses_systemCall {verb : String} (hsystem : object.isSystem = true)
    (hargs : ParseAll finish args) : Parses finish 9 (.verbCall object verb args t) := by
  intro ts rest hs hstop
  rw [words, hsystem] at hs
  obtain ⟨t', after, rfl, hkind, hs⟩ := Spelled.own hs
  obtain ⟨ident, _, rfl, hident, rfl, hspelledArgs⟩ := hs.name
  obtain ⟨_, rfl⟩ := eq_literal_of_isSystem hsystem
  obtain ⟨args', hbareArgs, hy⟩ := yields_arguments hargs hspelledArgs
  refine ⟨.verbCall (.literal (.object 0) t') ident.text args' t',
    by simp [hbareArgs], ?_⟩
  rw [rule_nine, atom, hkind]
  refine (yields_expect hident).widen.andThen ?_
  rw [systemTail, if_pos (startsWith_argumentWords hspelledArgs)]
  exact hy.widen.map _

/-- A callee is read as far as its own words go, and what stands there decides on the call. -/
def IsCallee (finish : Token) (callee : Expr) : Prop :=
  ∀ ts mid, Spelled ts callee.words mid →
    ∃ callee' t', callee'.bare = callee.bare ∧
      ∀ x rest, (callTail finish callee' t' mid).Yields x rest → (atom finish ts).Yields x rest

theorem isCallee_identifier {name : String} : IsCallee finish (.identifier name t) := by
  intro ts mid hs
  obtain ⟨t', rfl, hkind, rfl⟩ := Spelled.loneName hs
  refine ⟨.identifier t'.text t', t', rfl, fun x rest hx => ?_⟩
  rw [atom, hkind]
  exact hx

theorem isCallee_grouping (h : Parses finish 0 e) : IsCallee finish (.grouping e t) := by
  intro ts mid hs
  obtain ⟨t', after, rfl, hkind, hs⟩ := Spelled.own hs
  obtain ⟨_, hspelled, hs⟩ := Spelled.append_iff.mp hs
  obtain ⟨closing, rfl, hclosing⟩ := hs.loneSymbol
  obtain ⟨e', hbare, hy⟩ := h after _ hspelled (stops_of_kind hclosing rfl)
  refine ⟨.grouping e' t', t', by simp [hbare], fun x rest hx => ?_⟩
  rw [atom, hkind]
  exact hy.widen.andThen ((yields_expect hclosing).widen.andThen hx)

theorem IsCallee.parses (h : IsCallee finish e) : Parses finish 9 e := by
  intro ts rest hs hstop
  obtain ⟨e', t', hbare, hcall⟩ := h ts rest hs
  refine ⟨e', hbare, hcall e' rest ?_⟩
  rw [callTail, startsWith_of_stops hstop]
  exact yields_keep

theorem IsCallee.parses_call (h : IsCallee finish e) (hargs : ParseAll finish args) :
    Parses finish 9 (.call e args t) := by
  intro ts rest hs _
  obtain ⟨mid, hspelled, hspelledArgs⟩ := Spelled.append_iff.mp hs
  obtain ⟨e', t', hbare, hcall⟩ := h ts mid hspelled
  obtain ⟨args', hbareArgs, hy⟩ := yields_arguments hargs hspelledArgs
  refine ⟨.call e' args' t', by simp [hbare, hbareArgs], hcall _ rest ?_⟩
  rw [callTail, if_pos (startsWith_argumentWords hspelledArgs)]
  exact hy.widen.map _

theorem parses_list {es : List Expr} (hes : ParseAll finish es) :
    Parses finish 9 (.list es t) := by
  intro ts rest hs _
  obtain ⟨t', after, rfl, hkind, hs⟩ := Spelled.own hs
  obtain ⟨es', hbare, hy⟩ := yields_listTail (.inl rfl) hes hs
  refine ⟨.list es' t', by simp [hbare], ?_⟩
  rw [rule_nine, atom, hkind]
  exact hy.widen.map _

/-- Whatever stands behind it. -/
theorem yields_range (hleft : Parses finish 0 left) (hright : Parses finish 0 right)
    (hs : Spelled ts (Expr.range left right t).words rest) :
    ∃ e', e'.bare = (Expr.range left right t).bare ∧ (atom finish ts).Yields e' rest := by
  obtain ⟨t', after, rfl, hkind, hs⟩ := Spelled.own hs
  obtain ⟨_, hspelledLeft, hs⟩ := Spelled.append_iff.mp hs
  obtain ⟨dots, mid, rfl, hdots, hs⟩ := hs.symbol
  obtain ⟨_, hspelledRight, hs⟩ := Spelled.append_iff.mp hs
  obtain ⟨closing, rfl, hclosing⟩ := hs.loneSymbol
  obtain ⟨left', hbareLeft, hyLeft⟩ :=
    hleft after _ hspelledLeft (stops_of_kind hdots rfl)
  obtain ⟨right', hbareRight, hyRight⟩ :=
    hright mid _ hspelledRight (stops_of_kind hclosing rfl)
  refine ⟨.range left' right' t', by simp [hbareLeft, hbareRight], ?_⟩
  rw [atom, hkind]
  exact hyLeft.widen.andThen ((yields_expect hdots).widen.andThen
    (hyRight.widen.andThen ((yields_expect hclosing).widen.map _)))

theorem parses_recover {filters : List Expr} (hbody : Parses finish 0 left)
    (hfilters : ParseAll finish filters) (halternative : Parses finish 0 right) :
    Parses finish 9 (.recover left filters right t) := by
  intro ts rest hs _
  obtain ⟨t', after, rfl, hkind, hs⟩ := Spelled.own hs
  obtain ⟨_, hspelledBody, hs⟩ := Spelled.append_iff.mp hs
  obtain ⟨bang, mid, rfl, hbang, hs⟩ := hs.symbol
  obtain ⟨_, hspelledFilters, hs⟩ := Spelled.append_iff.mp hs
  obtain ⟨arrow, mid', rfl, harrow, hs⟩ := hs.symbol
  obtain ⟨_, hspelledAlternative, hs⟩ := Spelled.append_iff.mp hs
  obtain ⟨quote, rfl, hquote⟩ := hs.loneSymbol
  obtain ⟨body', hbareBody, hyBody⟩ :=
    hbody after _ hspelledBody (stops_of_kind hbang rfl)
  obtain ⟨filters', hbareFilters, hyFilters⟩ :=
    yields_errorFilters (by rw [harrow]; decide) (by rw [harrow]; rfl) hfilters hspelledFilters
  obtain ⟨alternative', hbareAlternative, hyAlternative⟩ :=
    halternative mid' _ hspelledAlternative (stops_of_kind hquote rfl)
  refine ⟨.recover body' filters' alternative' t',
    by simp [hbareBody, hbareFilters, hbareAlternative], ?_⟩
  rw [rule_nine, atom, hkind]
  exact hyBody.widen.andThen ((yields_expect hbang).widen.andThen
    (hyFilters.widen.andThen ((yields_expect harrow).widen.andThen
      (hyAlternative.widen.andThen ((yields_expect hquote).widen.map _)))))

theorem yields_objectId {negative : Bool} {id : ObjectId} (hkind : t.kind = .integer)
    (hid : Syntax.objectId? negative t = some id) :
    (objectId finish negative (t :: rest)).Yields id rest := by
  rw [Grammar.objectId]
  refine (yields_expect hkind).andThen ?_
  rw [hid]
  exact yields_keep

theorem yields_objectNumber {id : ObjectId} (hs : Spelled ts (Word.ofObjectId id) rest) :
    (objectNumber finish ts).Yields id rest := by
  rw [Word.ofObjectId] at hs
  split at hs
  · obtain ⟨minus, after, rfl, hminus, hs⟩ := hs.symbol
    obtain ⟨number, rfl, hw⟩ := Spelled.singleton_iff.mp hs
    have hid := Syntax.objectId?_of_text (hw.2 rfl _ rfl)
    rw [decide_eq_true ‹_›] at hid
    rw [objectNumber, if_pos hminus]
    exact (yields_objectId hw.1 hid).widen
  · obtain ⟨number, rfl, hw⟩ := Spelled.singleton_iff.mp hs
    have hid := Syntax.objectId?_of_text (hw.2 rfl _ rfl)
    rw [decide_eq_false ‹_›] at hid
    have hne : number.kind ≠ .symbol .minus := by
      have hkind : number.kind = .integer := hw.1
      rw [hkind]
      decide
    rw [objectNumber, if_neg hne]
    exact yields_objectId hw.1 hid

theorem words_literal {value : Value} (h : ∀ id, value ≠ .object id) :
    (Expr.literal value t).words = [.own t.kind t] := by
  cases value with
  | object id => exact absurd rfl (h id)
  | _ => rfl

theorem parses_literal {value : Value} (h : Denotes t value) :
    Parses finish 9 (.literal value t) := by
  intro ts rest hs _
  rcases h with hvalue | ⟨ht, rfl⟩ | ⟨ht, rfl⟩ | ⟨ht, id, rfl⟩
  · rw [words_literal (Syntax.ne_object_of_literalValue? hvalue)] at hs
    obtain ⟨t', rfl, hw⟩ := Spelled.singleton_iff.mp hs
    refine ⟨.literal value t', rfl, ?_⟩
    have hkind : t'.kind = t.kind := hw.1
    have hvaries : t.kind.varies = true := by
      rcases Syntax.kind_of_literalValue? hvalue with h | h | h <;> rw [h] <;> rfl
    have hvalue' : Syntax.literalValue? t' = some value := by
      rw [Syntax.literalValue?_congr hkind (hw.2 hvaries t.text rfl), hvalue]
    rcases Syntax.kind_of_literalValue? hvalue with h | h | h
    all_goals
      rw [rule_nine, atom, hkind, h]
      dsimp only
      rw [hvalue']
      exact yields_keep
  · obtain ⟨t', rfl, hw⟩ := Spelled.singleton_iff.mp hs
    have hkind : t'.kind = t.kind := hw.1
    refine ⟨.literal (.boolean true) t', rfl, ?_⟩
    rw [rule_nine, atom, hkind, ht]
    exact yields_keep
  · obtain ⟨t', rfl, hw⟩ := Spelled.singleton_iff.mp hs
    have hkind : t'.kind = t.kind := hw.1
    refine ⟨.literal (.boolean false) t', rfl, ?_⟩
    rw [rule_nine, atom, hkind, ht]
    exact yields_keep
  · obtain ⟨t', after, rfl, hkind, hs⟩ := Spelled.own hs
    refine ⟨.literal (.object id) t', rfl, ?_⟩
    rw [rule_nine, atom, hkind]
    exact (yields_objectNumber hs).widen.map _

end MooScript.Expr
