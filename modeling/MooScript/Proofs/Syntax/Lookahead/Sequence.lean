import Mathlib
import MooScript.Proofs.Syntax.Completeness.Expression
import MooScript.Proofs.Syntax.Lookahead.Decided

/-! Rules for single tokens, numbers and lists look one token ahead. -/
namespace MooScript

namespace Grammar

open Reading Run MooScript.Expr

variable {finish t : Token} {n k : Nat} {ts : List Token} {e : Expr} {β : Type} {q : Kind → Bool}

/-- Kinds that neither carry an expression on nor separate it from the next. -/
def endsExpr (k : Kind) : Bool := k.joinTier? == none && k != .symbol .comma

theorem Ends.stops (h : Ends endsExpr ts) : Stops k ts := by
  intro t ht j hj
  have hnone := (Bool.and_eq_true_iff.mp (h t ht)).1
  rw [beq_iff_eq.mp hnone] at hj
  cases hj

/-- An expression that can stand anywhere. -/
def zeroToken : Token := Word.token ⟨.integer, some "0"⟩

theorem yields_zero (hk : k ≤ 9) (h : Stops k ts) :
    ∃ e, (rule finish k (zeroToken :: ts)).Yields e ts := by
  have hconformant : (zero zeroToken).Conformant := .inl (by cbv)
  have hspelled : Spelled (zeroToken :: ts) (zero zeroToken).words ts :=
    .word ⟨rfl, fun _ _ h => Option.some.inj h⟩ .nil
  have hparses : Parses finish k (zero zeroToken) := ((zero zeroToken).reads hconformant k hk).1
  obtain ⟨e, _, he⟩ := hparses _ ts hspelled h
  exact ⟨e, he⟩

theorem voiced_zeroToken : ∀ t ∈ [zeroToken], t.kind.isVoiced = true :=
  List.forall_mem_singleton.mpr rfl

theorem rule_ready (hk : k ≤ 9) : Ready endsExpr (.ofRule (rule · k)) [zeroToken] := by
  refine .ofRule ⟨voiced_zeroToken, fun finish rest h => ?_⟩
  obtain ⟨e, he⟩ := yields_zero hk h.stops
  exact ⟨e, he.outcome⟩

theorem tail_ready : Ready endsExpr (.ofTail (tail · k e)) [] :=
  .ofTail <| .keep fun _ _ h => ⟨e, (tail_yields_of_stops h.stops).outcome⟩

section Expect

variable {kind : Kind} (hkind : kind.isVoiced = true)
include hkind

theorem expect_ready : Ready anyKind (.ofRule (expect · kind)) [kind.token] :=
  .ofRule ⟨List.forall_mem_singleton.mpr hkind,
    fun _ _ _ => ⟨kind.token, (yields_expect rfl).outcome⟩⟩

theorem expect_decided : Decided anyKind (.ofRule (expect · kind)) finish ts := by
  have hready := (expect_ready hkind).toFinishes
  cases ts with
  | nil => exact .ended hready _ rfl
  | cons t ts =>
    by_cases ht : t.kind = kind
    · exact .taken fun _ _ => (yields_expect ht).outcome
    · refine .blamed hready (.inl ⟨.kind kind, rfl⟩) fun _ _ => ?_
      rw [ofRule, expect, if_neg ht]
      rfl

variable {G : Token → Run β} {u : List Token}

theorem Ready.expect_bind (hG : ∀ t, Ready q (G t) u) :
    Ready q ((Run.ofRule (expect · kind)).bind G) (kind.token :: u) :=
  (expect_ready hkind).bind hG fun _ _ => ends_anyKind

theorem Decided.expect_bind (hready : ∀ t, Ready q (G t) u)
    (hG : ∀ t rest, rest.length < ts.length → Decided q (G t) finish rest) :
    Decided q ((ofRule (expect · kind)).bind G) finish ts :=
  (expect_decided hkind).bind (fun t rest h => hG t rest (takes_ofRule _ h))
    (fun t _ => hready t) fun _ _ => ends_anyKind

end Expect

section ObjectNumber

variable {negative : Bool}

theorem objectId_of_integer {rest : List Token} (ht : t.kind = .integer) :
    ofRule (objectId · negative) finish (t :: rest) =
      match Syntax.objectId? negative t with
      | some id => .ok (id, rest)
      | none => .error (.unexpectedToken .objectNumber t) := by
  rw [ofRule, objectId, outcome_andThen, (yields_expect ht).outcome]
  change outcome (match Syntax.objectId? negative t with
    | some id => keep id rest
    | none => .error (SyntaxError.unexpectedToken .objectNumber t)) = _
  cases Syntax.objectId? negative t <;> rfl

theorem objectId_ready (negative : Bool) :
    Ready anyKind (.ofRule (objectId · negative)) [zeroToken] := by
  refine .ofRule ⟨voiced_zeroToken, fun finish rest _ => ⟨0, ?_⟩⟩
  have hzero : Syntax.objectId? negative zeroToken = some 0 := by
    cases negative <;> cbv
  rw [List.singleton_append, objectId_of_integer rfl, hzero]

theorem objectId_decided : Decided anyKind (.ofRule (objectId · negative)) finish ts := by
  have hready := (objectId_ready negative).toFinishes
  cases ts with
  | nil => exact .ended hready _ rfl
  | cons t ts =>
    by_cases ht : t.kind = .integer
    · cases hid : Syntax.objectId? negative t with
      | some id => exact .taken fun _ _ => by rw [objectId_of_integer ht, hid]
      | none => exact .blamed hready (.inl ⟨_, rfl⟩) fun _ _ => by rw [objectId_of_integer ht, hid]
    · refine .blamed hready (.inl ⟨.kind .integer, rfl⟩) fun _ _ => ?_
      rw [ofRule, objectId, outcome_andThen, expect, if_neg ht]
      rfl

theorem objectNumber_ready : Ready anyKind (.ofRule objectNumber) [zeroToken] :=
  .ofRule ⟨voiced_zeroToken, (objectId_ready false).reads⟩

theorem objectNumber_run (ht : t.kind = .symbol .minus) :
    behind [t] (ofRule objectNumber) = ofRule (objectId · true) := by
  funext finish rest
  rw [behind, List.singleton_append, ofRule, objectNumber, if_pos ht, outcome_widen]
  rfl

theorem objectNumber_of_ne {rest : List Token} (ht : t.kind ≠ .symbol .minus) :
    ofRule objectNumber finish (t :: rest) = ofRule (objectId · false) finish (t :: rest) := by
  rw [ofRule, objectNumber, if_neg ht]
  rfl

theorem objectNumber_decided : Decided anyKind (.ofRule objectNumber) finish ts := by
  cases ts with
  | nil => exact .ended objectNumber_ready.toFinishes _ rfl
  | cons t ts =>
    by_cases ht : t.kind = .symbol .minus
    · exact .cons (objectNumber_run ht ▸ objectId_decided)
    · have hplain : Decided anyKind (ofRule (objectId · false)) finish (t :: ts) := objectId_decided
      exact .peek_cons objectNumber_ready (fun _ _ => objectNumber_of_ne ht) hplain

end ObjectNumber

/-- The statement about `expr`, of lists of fewer than `n` tokens. -/
def DecidedBelow (finish : Token) (n : Nat) : Prop :=
  ∀ ts : List Token, ts.length < n → Decided endsExpr (.ofRule expr) finish ts

section Lists

variable {closing : Symbol}

theorem nonemptyList_run : ofRule (nonemptyList · closing) =
    (ofRule expr).bind fun e => (ofRule (separatedTail · closing)).map (e :: ·) := by
  funext finish ts
  rw [ofRule, nonemptyList, outcome_andThen]
  simp only [outcome_map, outcome_widen]
  rfl

theorem filterList_run : ofRule filterList =
    (ofRule expr).bind fun e => (ofTail filterTail).map (e :: ·) := by
  funext finish ts
  rw [ofRule, filterList, outcome_andThen]
  simp only [outcome_map]
  rfl

theorem arguments_run : ofRule arguments =
    (ofRule (expect · (.symbol .leftParen))).bind fun _ => ofRule (listTail · .rightParen) := by
  funext finish ts
  rw [ofRule, arguments, outcome_andThen]
  simp only [outcome_widen]
  rfl

theorem separatedTail_of_closing (ht : t.kind = .symbol closing) :
    ofRule (separatedTail · closing) finish (t :: ts) = .ok ([], ts) := by
  rw [ofRule, separatedTail, if_pos ht]
  rfl

theorem separatedTail_run (hclose : t.kind ≠ .symbol closing) (hcomma : t.kind = .symbol .comma) :
    behind [t] (ofRule (separatedTail · closing)) = ofRule (listTail · closing) := by
  funext finish rest
  rw [behind, List.singleton_append, ofRule, separatedTail, if_neg hclose, if_pos hcomma,
    outcome_widen]
  rfl

theorem separatedTail_of_ne (hclose : t.kind ≠ .symbol closing)
    (hcomma : t.kind ≠ .symbol .comma) : ofRule (separatedTail · closing) finish (t :: ts) =
      .error (.unexpectedToken (.kind (.symbol .comma)) t) := by
  rw [ofRule, separatedTail, if_neg hclose, if_neg hcomma]
  rfl

theorem listTail_of_closing (ht : t.kind = .symbol closing) :
    ofRule (listTail · closing) finish (t :: ts) = .ok ([], ts) := by
  rw [ofRule, listTail, if_pos ht]
  rfl

theorem listTail_of_ne (ht : t.kind ≠ .symbol closing) :
    ofRule (listTail · closing) finish (t :: ts) =
      ofRule (nonemptyList · closing) finish (t :: ts) := by
  rw [ofRule, listTail, if_neg ht]
  rfl

theorem errorFilters_of_any (ht : t.kind = .keyword .any) :
    ofRule errorFilters finish (t :: ts) = .ok ([], ts) := by
  rw [ofRule, errorFilters, if_pos ht]
  rfl

theorem separatedTail_ready (closing : Symbol) :
    Ready anyKind (.ofRule (separatedTail · closing)) [(Kind.symbol closing).token] :=
  .ofRule ⟨List.forall_mem_singleton.mpr rfl,
    fun _ _ _ => ⟨[], separatedTail_of_closing (Kind.token_kind _)⟩⟩

theorem listTail_ready (closing : Symbol) :
    Ready anyKind (.ofRule (listTail · closing)) [(Kind.symbol closing).token] :=
  .ofRule ⟨List.forall_mem_singleton.mpr rfl,
    fun _ _ _ => ⟨[], listTail_of_closing (Kind.token_kind _)⟩⟩

theorem errorFilters_ready : Ready anyKind (.ofRule errorFilters) [(Kind.keyword .any).token] :=
  .ofRule ⟨List.forall_mem_singleton.mpr rfl,
    fun _ _ _ => ⟨[], errorFilters_of_any (Kind.token_kind _)⟩⟩

theorem arguments_ready : Ready anyKind (.ofRule arguments)
    [(Kind.symbol .leftParen).token, (Kind.symbol .rightParen).token] := by
  rw [arguments_run]
  exact .expect_bind rfl fun _ => listTail_ready _

theorem filterTail_opens : Opens (.symbol .comma) (ofTail filterTail) [] := by
  constructor
  · intro finish
    rw [ofTail, filterTail]
    rfl
  · intro finish t rest ht
    rw [ofTail, filterTail, if_neg ht]
    rfl

theorem filterTail_ready : Ready endsExpr (.ofTail filterTail) [] := filterTail_opens.ready rfl

variable (hexpr : DecidedBelow finish n)
include hexpr

theorem nonemptyList_decided_of_tail (hn : ts.length < n)
    (hclosing : endsExpr (.symbol closing) = true)
    (htail : ∀ rest : List Token, rest.length < ts.length →
      Decided anyKind (.ofRule (separatedTail · closing)) finish rest) :
    Decided anyKind (.ofRule (nonemptyList · closing)) finish ts := by
  rw [nonemptyList_run]
  refine (hexpr ts hn).bind (fun e rest h => ?_)
    (fun e _ => (separatedTail_ready closing).map _) fun _ _ => ?_
  · exact (htail rest (takes_ofRule _ h)).map _
  · exact ends_cons hclosing

theorem listTail_decided_of_tail (hn : ts.length < n)
    (hclosing : endsExpr (.symbol closing) = true)
    (htail : ∀ rest : List Token, rest.length < ts.length →
      Decided anyKind (.ofRule (separatedTail · closing)) finish rest) :
    Decided anyKind (.ofRule (listTail · closing)) finish ts := by
  have hnonempty := nonemptyList_decided_of_tail hexpr hn hclosing htail
  cases ts with
  | nil =>
    refine .peek_nil (listTail_ready closing) (fun finish => ?_) hnonempty
    rw [ofRule, listTail]
    rfl
  | cons t ts =>
    by_cases ht : t.kind = .symbol closing
    · exact .taken fun _ _ => listTail_of_closing ht
    · exact .peek_cons (listTail_ready closing) (fun _ _ => listTail_of_ne ht) hnonempty

theorem separatedTail_decided (hclosing : endsExpr (.symbol closing) = true) (ts : List Token)
    (hn : ts.length ≤ n) : Decided anyKind (.ofRule (separatedTail · closing)) finish ts := by
  have hready := (separatedTail_ready closing).toFinishes
  match ts, hn with
  | [], _ =>
    refine .ended hready (.kind (.symbol .comma)) ?_
    rw [ofRule, separatedTail]
    rfl
  | t :: ts, hn =>
    by_cases hclose : t.kind = .symbol closing
    · exact .taken fun _ _ => separatedTail_of_closing hclose
    by_cases hcomma : t.kind = .symbol .comma
    · refine .cons (separatedTail_run hclose hcomma ▸
        listTail_decided_of_tail hexpr hn hclosing fun rest hlt => ?_)
      exact separatedTail_decided hclosing rest (Nat.le_of_lt (Nat.lt_trans hlt hn))
    · exact .blamed hready (.inl ⟨.kind (.symbol .comma), rfl⟩) fun _ _ =>
        separatedTail_of_ne hclose hcomma
termination_by ts.length

theorem listTail_decided (hclosing : endsExpr (.symbol closing) = true) (hn : ts.length < n) :
    Decided anyKind (.ofRule (listTail · closing)) finish ts :=
  listTail_decided_of_tail hexpr hn hclosing fun rest hlt =>
    separatedTail_decided hexpr hclosing rest (Nat.le_of_lt (Nat.lt_trans hlt hn))

theorem arguments_decided (hn : ts.length ≤ n) : Decided anyKind (.ofRule arguments) finish ts := by
  rw [arguments_run]
  refine .expect_bind rfl (fun _ => listTail_ready _) fun _ rest hlt => ?_
  exact listTail_decided hexpr rfl (Nat.lt_of_lt_of_le hlt hn)

theorem filterList_decided_of_tail (hn : ts.length < n)
    (htail : ∀ rest : List Token, rest.length < ts.length →
      Decided endsExpr (.ofTail filterTail) finish rest) :
    Decided endsExpr (.ofRule filterList) finish ts := by
  rw [filterList_run]
  refine (hexpr ts hn).bind (fun e rest h => ?_) (fun e _ => filterTail_ready.map _) fun _ h => h
  exact (htail rest (takes_ofRule _ h)).map _

theorem filterTail_decided (ts : List Token) (hn : ts.length ≤ n) :
    Decided endsExpr (.ofTail filterTail) finish ts := by
  refine filterTail_opens.decided rfl fun t rest hts ht => ?_
  subst hts
  have hrun : behind [t] (ofTail filterTail) = ofRule filterList := by
    funext finish rest
    rw [behind, List.singleton_append, ofTail, filterTail, if_pos ht, outcome_widen, outcome_widen]
    rfl
  rw [hrun]
  refine filterList_decided_of_tail hexpr hn fun rest' hlt => ?_
  exact filterTail_decided rest' (Nat.le_of_lt (Nat.lt_trans hlt hn))
termination_by ts.length
decreasing_by
  subst_vars
  exact Nat.lt_succ_of_lt hlt

theorem errorFilters_decided (hn : ts.length < n) :
    Decided endsExpr (.ofRule errorFilters) finish ts := by
  have hready : Ready endsExpr (.ofRule errorFilters) _ := errorFilters_ready.mono fun _ _ => rfl
  have hlist := filterList_decided_of_tail hexpr hn fun rest hlt =>
    filterTail_decided hexpr rest (Nat.le_of_lt (Nat.lt_trans hlt hn))
  cases ts with
  | nil =>
    refine .peek_nil hready (fun finish => ?_) hlist
    rw [ofRule, errorFilters]
    rfl
  | cons t ts =>
    by_cases ht : t.kind = .keyword .any
    · exact .taken fun _ _ => errorFilters_of_any ht
    · refine .peek_cons hready (fun finish rest => ?_) hlist
      rw [ofRule, errorFilters, if_neg ht]
      rfl

end Lists

end Grammar
end MooScript
