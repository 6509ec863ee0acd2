import MooScript.Proofs.Syntax.Lookahead.Expression

/-! Expressions end alike in front of whatever may follow them. A rule that came to the end of the
input comes to the same result in front of a semicolon, which it never takes. -/
namespace MooScript.Grammar

open Reading Run

variable {α β : Type} {p p' q : Kind → Bool} {kind : Kind} {F : Run α} {G : α → Run β} {a : α}
  {f : α → β} {t finish : Token} {ts rest used : List Token}

/-- No semicolon is the last of the tokens. -/
def Unclosed (used : List Token) : Prop := ∀ t ∈ used.getLast?, t.kind ≠ .symbol .semicolon

theorem unclosed_nil : Unclosed [] := fun t ht => absurd ht (Option.not_mem_none t)

theorem Unclosed.cons (ht : t.kind ≠ .symbol .semicolon) (h : Unclosed used) :
    Unclosed (t :: used) := by
  intro t' ht'
  cases used with
  | nil =>
    cases ht'
    exact ht
  | cons t₁ used => exact h t' (List.getLast?_cons_cons ▸ ht')

theorem Unclosed.append_cons (h : Unclosed (t :: used)) (front : List Token) :
    Unclosed (front ++ t :: used) := by
  intro t' ht'
  rw [List.getLast?_append_cons] at ht'
  exact h t' ht'

/-- The tokens are read as `a` in front of every end, if that is what they stand in front of; no
semicolon is the last of them. -/
structure Delimited (p : Kind → Bool) (F : Run α) (used : List Token) (a : α)
    (rest : List Token) : Prop where
  unclosed : Unclosed used
  reads : Ends p rest → ∀ finish us, Ends p us → F finish (used ++ us) = .ok (a, us)

/-- What is read off a list is delimited. -/
def Indifferent (p : Kind → Bool) (F : Run α) (ts : List Token) : Prop :=
  ∀ ⦃finish a rest⦄, F finish ts = .ok (a, rest) →
    ∃ used, ts = used ++ rest ∧ Delimited p F used a rest

theorem Decided.accepts (h : Decided p F finish ts) (hok : F finish ts = .ok (a, rest)) :
    ∃ used, ts = used ++ rest ∧ Accepts p F used a rest := by
  cases h with
  | accepted hts h hused =>
    cases hok.symm.trans h
    exact ⟨_, hts, hused⟩
  | rejected hts h hused => cases hok.symm.trans h

/-- The second of two runs takes the last token. -/
theorem Accepts.delimited_bind {used' : List Token} {b : β}
    (hF : Accepts p F used a (t :: used' ++ rest)) (hG : Delimited q (G a) (t :: used') b rest) :
    Delimited q (F.bind G) (used ++ t :: used') b rest := by
  refine ⟨hG.unclosed.append_cons used, fun hrest finish us hus => ?_⟩
  have hfirst : F finish (used ++ t :: used' ++ us) = .ok (a, t :: used' ++ us) := by
    rw [List.append_assoc]
    exact hF.same t rfl finish (used' ++ us)
  rw [bind_of_ok hfirst]
  exact hG.reads hrest finish us hus

/-- However much the second run takes, a rule in front of it takes a token. -/
theorem Run.takes_rule_bind {r : Token → (ts : List Token) → Rule α ts}
    (hG : ∀ a, ∃ n, Takes n (G a)) : Takes 1 ((ofRule r).bind G) := by
  intro finish ts b rest hb
  obtain ⟨a, mid, ha, hb⟩ := bind_eq_ok_iff.mp hb
  obtain ⟨n, hn⟩ := hG a
  have hmid := takes_ofRule r ha
  have hrest := hn hb
  omega

namespace Indifferent

theorem mono (h : Indifferent p F ts) (hpq : ∀ k, q k = true → p k = true) :
    Indifferent q F ts := by
  intro finish a rest hok
  obtain ⟨used, hts, hused⟩ := h hok
  exact ⟨used, hts, hused.unclosed,
    fun hrest finish us hus => hused.reads (hrest.mono hpq) finish us (hus.mono hpq)⟩

theorem map (h : Indifferent p F ts) (f : α → β) : Indifferent p (F.map f) ts := by
  intro finish b rest hok
  obtain ⟨a, ha, rfl⟩ := map_eq_ok_iff.mp hok
  obtain ⟨used, hts, hused⟩ := h ha
  exact ⟨used, hts, hused.unclosed,
    fun hrest finish us hus => map_of_ok (hused.reads hrest finish us hus)⟩

/-- One run behind another, which may leave the end to the first. -/
theorem bind (hdecided : ∀ finish, Decided p' F finish ts) (hF : Indifferent p F ts)
    (hG : ∀ finish a rest, F finish ts = .ok (a, rest) → Indifferent q (G a) rest)
    (hends : ∀ k, q k = true → p k = true) : Indifferent q (F.bind G) ts := by
  intro finish b rest hok
  obtain ⟨a, mid, ha, hb⟩ := bind_eq_ok_iff.mp hok
  obtain ⟨used', hmid, hused'⟩ := hG finish a mid ha hb
  cases used' with
  | nil =>
    obtain ⟨used, hts, hused⟩ := hF ha
    refine ⟨used, by rw [hts, hmid, List.nil_append], hused.unclosed, fun hrest finish us hus => ?_⟩
    have hrest' : Ends p mid := hmid ▸ hrest.mono hends
    rw [bind_of_ok (hused.reads hrest' finish us (hus.mono hends))]
    exact hused'.reads hrest finish us hus
  | cons t used' =>
    obtain ⟨used, hts, hused⟩ := (hdecided finish).accepts ha
    refine ⟨used ++ t :: used', by rw [hts, hmid, List.append_assoc], ?_⟩
    exact (hmid ▸ hused).delimited_bind hused'

/-- One run behind another, which takes the last token in any case. -/
theorem bind_of_takes (hdecided : ∀ finish, Decided p' F finish ts) (htakes : ∀ a, (G a).Takes 1)
    (hG : ∀ finish a rest, F finish ts = .ok (a, rest) → Indifferent q (G a) rest) :
    Indifferent q (F.bind G) ts := by
  intro finish b rest hok
  obtain ⟨a, mid, ha, hb⟩ := bind_eq_ok_iff.mp hok
  obtain ⟨used', hmid, hused'⟩ := hG finish a mid ha hb
  cases used' with
  | nil =>
    have hlength := htakes a hb
    rw [hmid, List.nil_append] at hlength
    exact absurd hlength (Nat.not_succ_le_self _)
  | cons t used' =>
    obtain ⟨used, hts, hused⟩ := (hdecided finish).accepts ha
    refine ⟨used ++ t :: used', by rw [hts, hmid, List.append_assoc], ?_⟩
    exact (hmid ▸ hused).delimited_bind hused'

/-- Nothing is read, neither here nor in front of an end. -/
theorem kept (hts : ∀ finish, F finish ts = .ok (a, ts))
    (hus : ∀ finish us, Ends p us → F finish us = .ok (a, us)) : Indifferent p F ts := by
  intro finish a' rest hok
  cases (hts finish).symm.trans hok
  exact ⟨[], rfl, unclosed_nil, fun _ finish us hends => hus finish us hends⟩

theorem cons (ht : t.kind ≠ .symbol .semicolon) (h : Indifferent p (F.behind [t]) ts) :
    Indifferent p F (t :: ts) := by
  intro finish a rest hok
  obtain ⟨used, rfl, hused⟩ := h hok
  exact ⟨t :: used, rfl, hused.unclosed.cons ht, hused.reads⟩

/-- The token is taken, and nothing else. -/
theorem taken (ht : t.kind ≠ .symbol .semicolon)
    (h : ∀ finish rest, F finish (t :: rest) = .ok (a, rest)) : Indifferent p F (t :: ts) :=
  cons ht fun finish a' rest hok => by
    cases (h finish ts).symm.trans hok
    exact ⟨[], rfl, unclosed_nil, fun _ finish us _ => h finish us⟩

theorem failed (h : ∀ finish, ∃ e, F finish ts = .error e) : Indifferent p F ts := by
  intro finish a rest hok
  obtain ⟨e, he⟩ := h finish
  cases he.symm.trans hok

theorem rule_nil {r : Token → (ts : List Token) → Rule α ts} : Indifferent p (ofRule r) [] :=
  fun _ _ _ hok => absurd (takes_ofRule r hok) (Nat.not_succ_le_zero _)

/-- The next token tells that the list is one for `F'`, which takes it. -/
theorem peek_cons {F' : Run α} (htakes : F'.Takes 1)
    (heq : ∀ finish rest, F finish (t :: rest) = F' finish (t :: rest))
    (h : Indifferent p F' (t :: ts)) : Indifferent p F (t :: ts) := by
  intro finish a rest hok
  rw [heq] at hok
  obtain ⟨used, hts, hused⟩ := h hok
  cases used with
  | nil =>
    have hlength := htakes hok
    rw [hts, List.nil_append] at hlength
    exact absurd hlength (Nat.not_succ_le_self _)
  | cons t' used =>
    obtain ⟨rfl, hts'⟩ := List.cons_eq_cons.mp hts
    refine ⟨t :: used, hts, hused.unclosed, fun hrest finish us hus => ?_⟩
    rw [List.cons_append, heq]
    exact hused.reads hrest finish us hus

theorem expect (hkind : kind ≠ .symbol .semicolon) :
    Indifferent anyKind (ofRule (Grammar.expect · kind)) ts := by
  cases ts with
  | nil => exact rule_nil
  | cons t ts =>
    by_cases ht : t.kind = kind
    · exact taken (ht ▸ hkind) fun _ _ => (Expr.yields_expect ht).outcome
    · refine failed fun finish => ⟨.unexpectedToken (.kind kind) t, ?_⟩
      rw [ofRule, Grammar.expect, if_neg ht]
      rfl

theorem expect_bind {G : Token → Run β} (hkind : kind ≠ .symbol .semicolon)
    (hvoiced : kind.isVoiced = true)
    (hG : ∀ t rest, rest.length < ts.length → Indifferent q (G t) rest) :
    Indifferent q ((ofRule (Grammar.expect · kind)).bind G) ts :=
  bind (fun _ => expect_decided hvoiced) (expect hkind)
    (fun _ t rest h => hG t rest (takes_ofRule _ h)) fun _ _ => rfl

end Indifferent

theorem Opens.indifferent {r : Token → (ts : List Token) → Tail α ts} (h : Opens kind (ofTail r) a)
    (hp : p kind = false) (hkind : kind ≠ .symbol .semicolon)
    (hopened : ∀ t rest, ts = t :: rest → t.kind = kind →
      Indifferent p ((ofTail r).behind [t]) rest) : Indifferent p (ofTail r) ts := by
  have hus : ∀ finish us, Ends p us → ofTail r finish us = .ok (a, us) := by
    intro finish us hus
    cases us with
    | nil => exact h.nil finish
    | cons t us =>
      refine h.cons finish t us fun ht => ?_
      have hend := hus t rfl
      rw [ht, hp] at hend
      cases hend
  cases ts with
  | nil => exact .kept h.nil hus
  | cons t ts =>
    by_cases ht : t.kind = kind
    · exact .cons (ht ▸ hkind) (hopened t ts rfl ht)
    · exact .kept (fun finish => h.cons finish t ts ht) hus

/-! ### Lists -/

section Lists

variable {closing : Symbol}

theorem objectId_indifferent {negative : Bool} :
    Indifferent anyKind (ofRule (objectId · negative)) ts := by
  cases ts with
  | nil => exact .rule_nil
  | cons t ts =>
    by_cases ht : t.kind = .integer
    · cases hid : Syntax.objectId? negative t with
      | some id =>
        exact .taken (by rw [ht]; decide) fun _ _ => by rw [objectId_of_integer ht, hid]
      | none =>
        refine .failed fun _ => ⟨.unexpectedToken .objectNumber t, ?_⟩
        rw [objectId_of_integer ht, hid]
    · refine .failed fun _ => ⟨.unexpectedToken (.kind .integer) t, ?_⟩
      rw [ofRule, objectId, outcome_andThen, expect, if_neg ht]
      rfl

theorem objectNumber_indifferent : Indifferent anyKind (ofRule objectNumber) ts := by
  cases ts with
  | nil => exact .rule_nil
  | cons t ts =>
    by_cases ht : t.kind = .symbol .minus
    · exact .cons (by rw [ht]; decide) (objectNumber_run ht ▸ objectId_indifferent)
    · exact .peek_cons (takes_ofRule (objectId · false)) (fun _ _ => objectNumber_of_ne ht)
        objectId_indifferent

theorem nonemptyList_indifferent_of_tail
    (htail : ∀ rest : List Token, rest.length < ts.length →
      Indifferent anyKind (.ofRule (separatedTail · closing)) rest) :
    Indifferent anyKind (.ofRule (nonemptyList · closing)) ts := by
  rw [nonemptyList_run]
  refine .bind_of_takes (fun _ => expr_decided) (fun e => (takes_ofRule _).map)
    fun _ e rest h => ?_
  exact (htail rest (takes_ofRule _ h)).map _

variable (hclosing : closing ≠ .semicolon)
include hclosing

theorem listTail_indifferent_of_tail
    (htail : ∀ rest : List Token, rest.length < ts.length →
      Indifferent anyKind (.ofRule (separatedTail · closing)) rest) :
    Indifferent anyKind (.ofRule (listTail · closing)) ts := by
  have hnonempty := nonemptyList_indifferent_of_tail htail
  cases ts with
  | nil => exact .rule_nil
  | cons t ts =>
    by_cases ht : t.kind = .symbol closing
    · exact .taken (by rw [ht]; simpa using hclosing) fun _ _ => listTail_of_closing ht
    · exact .peek_cons (takes_ofRule _) (fun _ _ => listTail_of_ne ht) hnonempty

theorem separatedTail_indifferent (ts : List Token) :
    Indifferent anyKind (.ofRule (separatedTail · closing)) ts := by
  match ts with
  | [] => exact .rule_nil
  | t :: ts =>
    by_cases hclose : t.kind = .symbol closing
    · exact .taken (by rw [hclose]; simpa using hclosing) fun _ _ => separatedTail_of_closing hclose
    by_cases hcomma : t.kind = .symbol .comma
    · refine .cons (by rw [hcomma]; decide) (separatedTail_run hclose hcomma ▸
        listTail_indifferent_of_tail hclosing fun rest hlt => ?_)
      exact separatedTail_indifferent rest
    · exact .failed fun _ => ⟨_, separatedTail_of_ne hclose hcomma⟩
termination_by ts.length
decreasing_by exact Nat.lt_succ_of_lt hlt

theorem listTail_indifferent : Indifferent anyKind (.ofRule (listTail · closing)) ts :=
  listTail_indifferent_of_tail hclosing fun rest _ => separatedTail_indifferent hclosing rest

omit hclosing in
theorem arguments_indifferent : Indifferent anyKind (.ofRule arguments) ts := by
  rw [arguments_run]
  exact .expect_bind (by decide) rfl fun _ _ _ => listTail_indifferent (by decide)

end Lists

section Call

variable {e : Expr} {r : Token → (ts : List Token) → Tail Expr ts} {f : List Expr → Expr}
  (hr : ∀ finish ts, ofTail r finish ts =
    if startsWith (.symbol .leftParen) ts then (ofRule arguments).map f finish ts else .ok (e, ts))
include hr

theorem call_indifferent : Indifferent endsExpr (ofTail r) ts := by
  have hus : ∀ finish us, startsWith (.symbol .leftParen) us = false →
      ofTail r finish us = .ok (e, us) := by
    intro finish us hus
    rw [hr, hus]
    rfl
  have hends : ∀ finish us, Ends endsExpr us → ofTail r finish us = .ok (e, us) :=
    fun finish us h => hus finish us (Expr.startsWith_of_stops h.stops)
  cases ts with
  | nil => exact .kept (fun finish => hus finish [] rfl) hends
  | cons t ts =>
    by_cases ht : t.kind = .symbol .leftParen
    · have hstarts : ∀ rest, startsWith (.symbol .leftParen) (t :: rest) = true :=
        fun _ => beq_iff_eq.mpr ht
      refine .peek_cons (takes_ofRule arguments).map (fun finish rest => ?_)
        ((arguments_indifferent.mono fun _ _ => rfl).map f)
      rw [hr, if_pos (hstarts rest)]
    · exact .kept (fun finish => hus finish _ (beq_eq_false_iff_ne.mpr ht)) hends

end Call

/-! ### Expressions -/

section Atom

theorem grouping_indifferent (ht : t.kind = .symbol .leftParen) :
    Indifferent endsExpr (ofRule atom) (t :: ts) := by
  refine .cons (by rw [ht]; decide) (atom_run_grouping ht ▸ ?_)
  refine .bind_of_takes (fun _ => expr_decided)
    (fun _ => takes_rule_bind fun _ => ⟨0, takes_ofTail _⟩) fun _ inner rest _ => ?_
  exact .expect_bind (by decide) rfl fun _ _ _ => call_indifferent callTail_run

theorem range_indifferent (ht : t.kind = .symbol .leftBracket) :
    Indifferent anyKind (ofRule atom) (t :: ts) := by
  refine .cons (by rw [ht]; decide) (atom_run_range ht ▸ ?_)
  refine .bind_of_takes (fun _ => expr_decided)
    (fun _ => takes_rule_bind fun _ => ⟨1, takes_rule_bind fun _ => ⟨1, (takes_ofRule _).map⟩⟩)
    fun _ first rest _ => ?_
  refine .expect_bind (by decide) rfl fun _ rest _ => ?_
  refine .bind_of_takes (fun _ => expr_decided) (fun _ => (takes_ofRule _).map) fun _ last _ _ => ?_
  exact (Indifferent.expect (by decide)).map _

theorem recover_indifferent (ht : t.kind = .symbol .backtick) :
    Indifferent anyKind (ofRule atom) (t :: ts) := by
  have htakes : ∀ (body : Expr) (filters : List Expr), Takes 1
      ((ofRule (expect · (.symbol .fatArrow))).bind fun _ => (ofRule expr).bind fun alternative =>
        (ofRule (expect · (.symbol .quote))).map fun _ =>
          Expr.recover body filters alternative t) :=
    fun body filters => takes_rule_bind fun _ =>
      ⟨1, takes_rule_bind fun _ => ⟨1, (takes_ofRule _).map⟩⟩
  refine .cons (by rw [ht]; decide) (atom_run_recover ht ▸ ?_)
  refine .bind_of_takes (fun _ => expr_decided) (fun body => takes_rule_bind fun _ =>
    ⟨1, takes_rule_bind fun filters => ⟨1, htakes body filters⟩⟩) fun _ body rest _ => ?_
  refine .expect_bind (by decide) rfl fun _ rest₁ _ => ?_
  refine .bind_of_takes (fun _ => errorFilters_decided (decidedBelow _) (Nat.lt_succ_self _))
    (htakes body) fun _ filters rest₂ _ => ?_
  refine .expect_bind (by decide) rfl fun _ rest₃ _ => ?_
  refine .bind_of_takes (fun _ => expr_decided) (fun _ => (takes_ofRule _).map) fun _ _ _ _ => ?_
  exact (Indifferent.expect (by decide)).map _

theorem atom_indifferent : Indifferent endsExpr (ofRule atom) ts := by
  cases ts with
  | nil => exact .rule_nil
  | cons t ts =>
    have hother (h : ∀ finish, ofRule atom finish (t :: ts) = fail finish .expression (t :: ts)) :
        Indifferent endsExpr (ofRule atom) (t :: ts) := .failed fun finish => ⟨_, h finish⟩
    have hliteral (hkind : t.kind = .integer ∨ t.kind = .float ∨ t.kind = .string) :
        Indifferent endsExpr (ofRule atom) (t :: ts) := by
      cases hvalue : Syntax.literalValue? t with
      | some value =>
        refine .taken ?_ fun _ _ => by rw [atom_of_literal hkind, hvalue]
        rcases hkind with hkind | hkind | hkind <;> rw [hkind] <;> decide
      | none =>
        refine .failed fun _ => ⟨.unexpectedToken (.kind t.kind) t, ?_⟩
        rw [atom_of_literal hkind, hvalue]
    cases hkind : t.kind with
    | identifier =>
      exact .cons (by rw [hkind]; decide)
        (atom_run_identifier hkind ▸ call_indifferent callTail_run)
    | integer => exact hliteral (.inl hkind)
    | float => exact hliteral (.inr (.inl hkind))
    | string => exact hliteral (.inr (.inr hkind))
    | keyword k =>
      cases k with
      | true_ =>
        refine .taken (by rw [hkind]; decide) (a := .literal (.boolean true) t) fun _ _ => ?_
        rw [ofRule, atom, hkind]
        rfl
      | false_ =>
        refine .taken (by rw [hkind]; decide) (a := .literal (.boolean false) t) fun _ _ => ?_
        rw [ofRule, atom, hkind]
        rfl
      | _ =>
        refine hother fun finish => ?_
        rw [ofRule, atom, hkind]
        rfl
    | symbol s =>
      cases s with
      | leftParen => exact grouping_indifferent hkind
      | leftBracket => exact (range_indifferent hkind).mono fun _ _ => rfl
      | backtick => exact (recover_indifferent hkind).mono fun _ _ => rfl
      | leftBrace =>
        exact .cons (by rw [hkind]; decide) (atom_run_list hkind ▸
          ((listTail_indifferent (by decide)).mono fun _ _ => rfl).map _)
      | hash =>
        exact .cons (by rw [hkind]; decide)
          (atom_run_object hkind ▸ (objectNumber_indifferent.mono fun _ _ => rfl).map _)
      | dollar =>
        refine .cons (by rw [hkind]; decide) (atom_run_system hkind ▸ ?_)
        exact .expect_bind (by decide) rfl fun _ _ _ => call_indifferent systemTail_run
      | _ =>
        refine hother fun finish => ?_
        rw [ofRule, atom, hkind]
        rfl
    | comment | eof =>
      refine hother fun finish => ?_
      rw [ofRule, atom, hkind]
      rfl

end Atom

section Tail

variable {k : Nat}

theorem tail_of_ends {e : Expr} (finish : Token) (us : List Token) (h : Ends endsExpr us) :
    ofTail (tail · k e) finish us = .ok (e, us) :=
  (tail_yields_of_stops h.stops).outcome

theorem verbTail_indifferent (object : Expr) (ts : List Token) :
    Indifferent endsExpr (ofTail (tail · 8 object)) ts := by
  refine verbTail_opens.indifferent rfl (by decide) fun t rest hts ht => ?_
  rw [verbTail_run ht]
  refine .expect_bind (by decide) rfl fun verb mid hlt => ?_
  refine .bind (fun _ => arguments_decided (decidedBelow _) (Nat.le_refl _)) arguments_indifferent
    (fun _ args rest' h => ?_) fun _ _ => rfl
  have hrest' := takes_ofRule _ h
  exact verbTail_indifferent _ rest'
termination_by ts.length
decreasing_by
  subst_vars
  simp only [List.length_cons]
  omega

theorem propertyTail_indifferent (object : Expr) (ts : List Token) :
    Indifferent endsExpr (ofTail (tail · 6 object)) ts := by
  refine propertyTail_opens.indifferent rfl (by decide) fun t rest hts ht => ?_
  rw [propertyTail_run ht]
  refine .expect_bind (by decide) rfl fun name rest' hlt => ?_
  exact propertyTail_indifferent _ rest'
termination_by ts.length
decreasing_by
  subst_vars
  exact Nat.lt_succ_of_lt hlt

theorem chainTail_indifferent (level : Level)
    (hoperand : ∀ ts : List Token, Indifferent endsExpr (ofRule (rule · (level.tier + 1))) ts)
    (left : Expr) (ts : List Token) :
    Indifferent endsExpr (ofTail (tail · level.tier left)) ts := by
  match ts with
  | [] => exact .kept (fun finish => tail_of_ends finish [] ends_nil) tail_of_ends
  | t :: ts =>
    cases hop : level.operator? t.kind with
    | some op =>
      have hkind : t.kind ≠ .symbol .semicolon := by
        intro hkind
        rw [hkind] at hop
        cases level <;> cases hop
      refine .cons hkind (chainTail_run hop ▸ ?_)
      refine .bind (fun _ => rule_decided (decidedBelow _) _ ts (Nat.le_refl _)) (hoperand ts)
        (fun _ right rest h => ?_) fun _ h => h
      have hrest := takes_ofRule _ h
      exact chainTail_indifferent level hoperand _ rest
    | none =>
      refine .kept (fun finish => ?_) tail_of_ends
      rw [ofTail, tail_level, chainTail, hop]
      rfl
termination_by ts.length
decreasing_by
  simp only [List.length_cons]
  omega

theorem tail_indifferent (hk : 0 < k)
    (hnext : ∀ ts : List Token, Indifferent endsExpr (ofRule (rule · (k + 1))) ts)
    (left : Expr) (ts : List Token) : Indifferent endsExpr (ofTail (tail · k left)) ts := by
  match k with
  | 0 => exact absurd hk (Nat.lt_irrefl 0)
  | 1 => exact chainTail_indifferent .disjunction hnext left ts
  | 2 => exact chainTail_indifferent .conjunction hnext left ts
  | 3 => exact chainTail_indifferent .comparison hnext left ts
  | 4 => exact chainTail_indifferent .additive hnext left ts
  | 5 => exact chainTail_indifferent .multiplicative hnext left ts
  | 6 => exact propertyTail_indifferent left ts
  | 7 => exact .kept (fun _ => rfl) tail_of_ends
  | 8 => exact verbTail_indifferent left ts
  | k + 9 => exact .kept (fun _ => rfl) tail_of_ends

end Tail

section Tier

variable {k n : Nat}

theorem rule_indifferent_of_tail (hk : k < 9) (hunary : k ≠ 7)
    (hnext : Indifferent endsExpr (ofRule (rule · (k + 1))) ts)
    (htail : ∀ left rest, rest.length < ts.length →
      Indifferent endsExpr (ofTail (tail · k left)) rest) :
    Indifferent endsExpr (ofRule (rule · k)) ts := by
  rw [rule_run hk hunary]
  exact .bind (fun _ => rule_decided (decidedBelow _) _ ts (Nat.le_refl _)) hnext
    (fun _ left rest h => htail left rest (takes_ofRule _ h)) fun _ h => h

theorem unary_indifferent (ts : List Token)
    (hprimary : ∀ ts : List Token, Indifferent endsExpr (ofRule (rule · 8)) ts) :
    Indifferent endsExpr (ofRule (rule · 7)) ts := by
  induction ts with
  | nil => exact .rule_nil
  | cons t ts ih =>
    cases hop : unaryOperator? t.kind with
    | none =>
      exact .peek_cons (takes_ofRule (rule · 8)) (fun _ _ => unary_of_none hop) (hprimary (t :: ts))
    | some op =>
      have hkind : t.kind ≠ .symbol .semicolon := by
        intro hkind
        rw [hkind] at hop
        cases hop
      exact .cons hkind (unary_run hop ▸ ih.map _)

/-- From the tightest rule to the loosest but assignments. -/
theorem rule_indifferent (k : Nat) (hpos : 0 < k) (ts : List Token) :
    Indifferent endsExpr (ofRule (rule · k)) ts := by
  by_cases hk : k < 9
  · have hnext := rule_indifferent (k + 1) (Nat.succ_pos k)
    by_cases hunary : k = 7
    · subst hunary
      exact unary_indifferent ts hnext
    · exact rule_indifferent_of_tail hk hunary (hnext ts)
        fun left rest _ => tail_indifferent hpos hnext left rest
  · obtain ⟨j, rfl⟩ := Nat.exists_eq_add_of_le (Nat.le_of_not_lt hk)
    rw [Nat.add_comm]
    exact atom_indifferent
termination_by 9 - k

theorem assignmentTail_indifferent (left : Expr)
    (hexpr : ∀ t rest, ts = t :: rest → Indifferent endsExpr (ofRule expr) rest) :
    Indifferent endsExpr (ofTail (tail · 0 left)) ts := by
  cases hleft : left.name?.isSome with
  | true =>
    refine assignmentTail_opens.indifferent rfl (by decide) fun t rest hts ht => ?_
    rw [assignmentTail_run ht hleft]
    exact (hexpr t rest hts).map _
  | false =>
    cases ts with
    | nil => exact .kept (fun finish => tail_of_ends finish [] ends_nil) tail_of_ends
    | cons t ts =>
      by_cases ht : t.kind = .symbol .equal
      · refine .failed fun finish => ⟨.invalidAssignment left.token, ?_⟩
        rw [ofTail, tail, assignmentTail, if_pos ht, hleft]
        rfl
      · exact .kept (fun finish => assignmentTail_opens.cons finish t ts ht) tail_of_ends

theorem expr_indifferent (ts : List Token) : Indifferent endsExpr (ofRule expr) ts := by
  refine rule_indifferent_of_tail (by decide) (by decide)
    (rule_indifferent 1 Nat.one_pos ts) fun left rest hlt => ?_
  exact assignmentTail_indifferent left fun t rest' hrest => expr_indifferent rest'
termination_by ts.length
decreasing_by
  subst_vars
  exact Nat.lt_of_succ_lt hlt

end Tier

end MooScript.Grammar
