import MooScript.Proofs.Syntax.Completeness.Reads

/-! Expressions with commas between them, read back from their words. -/
namespace MooScript.Expr

open Grammar Reading

variable {finish t : Token} {k : Nat} {ts mid rest : List Token} {e : Expr} {args : List Expr}

theorem yields_expect {kind : Kind} (h : t.kind = kind) :
    (expect finish kind (t :: ts)).Yields t ts := by
  rw [expect, if_pos h]
  exact yields_keep

theorem kind_ne_of_startsExpr {kind : Kind} (ht : t.kind.startsExpr = true)
    (hkind : kind.startsExpr = false) : t.kind ≠ kind := by
  rintro rfl
  rw [ht] at hkind
  cases hkind

/-- The expressions are read by themselves. -/
def ParseAll (finish : Token) (es : List Expr) : Prop :=
  ∀ e ∈ es, e.Conformant ∧ Parses finish 0 e

section

variable {closing : Symbol} {es es' : List Expr}
  (hclosing : closing = .rightBrace ∨ closing = .rightParen)
include hclosing

theorem stops_of_wordsMore (hs : Spelled ts (wordsMore es ++ [.symbol closing]) rest) :
    Stops k ts := by
  cases es with
  | nil =>
    obtain ⟨t, rfl, hkind⟩ := Spelled.loneSymbol hs
    rcases hclosing with rfl | rfl <;> exact stops_of_kind hkind rfl
  | cons e es =>
    obtain ⟨t, _, rfl, hkind, _⟩ := Spelled.symbol hs
    exact stops_of_kind hkind rfl

theorem yields_listTail_cons (he : e.Conformant ∧ Parses finish 0 e)
    (hs : Spelled ts e.words mid) (hstop : Stops 0 mid)
    (htail : (separatedTail finish closing mid).Yields es rest) :
    ∃ e', e'.bare = e.bare ∧ (listTail finish closing ts).Yields (e' :: es) rest := by
  obtain ⟨hconformant, hparses⟩ := he
  obtain ⟨e', hbare, hy⟩ := hparses ts mid hs hstop
  obtain ⟨t, after, rfl, hhead, _⟩ := spelled_head hconformant hs
  refine ⟨e', hbare, ?_⟩
  have hstart : Kind.startsExpr (.symbol closing) = false := by
    rcases hclosing with rfl | rfl <;> rfl
  rw [listTail, if_neg (kind_ne_of_startsExpr hhead hstart), nonemptyList]
  exact hy.andThen (htail.widen.map _)

theorem yields_separatedTail (hes : ParseAll finish es)
    (hs : Spelled ts (wordsMore es ++ [.symbol closing]) rest) :
    ∃ es', bareAll es' = bareAll es ∧ (separatedTail finish closing ts).Yields es' rest := by
  induction es generalizing ts with
  | nil =>
    obtain ⟨t, rfl, hkind⟩ := Spelled.loneSymbol hs
    refine ⟨[], rfl, ?_⟩
    rw [separatedTail, if_pos hkind]
    exact yields_keep
  | cons e es ih =>
    obtain ⟨he, hes⟩ := List.forall_mem_cons.mp hes
    rw [wordsMore, List.cons_append, List.append_assoc] at hs
    obtain ⟨t, after, rfl, hkind, hs⟩ := hs.symbol
    obtain ⟨mid, hse, hs⟩ := Spelled.append_iff.mp hs
    obtain ⟨es', hbareAll, htail⟩ := ih hes hs
    obtain ⟨e', hbare, hy⟩ :=
      yields_listTail_cons hclosing he hse (stops_of_wordsMore hclosing hs) htail
    refine ⟨e' :: es', by simp [hbare, hbareAll], ?_⟩
    have hne : t.kind ≠ .symbol closing := by
      rw [hkind]
      rcases hclosing with rfl | rfl <;> decide
    rw [separatedTail, if_neg hne, if_pos hkind]
    exact hy.widen

theorem yields_listTail (hes : ParseAll finish es)
    (hs : Spelled ts (wordsAll es ++ [.symbol closing]) rest) :
    ∃ es', bareAll es' = bareAll es ∧ (listTail finish closing ts).Yields es' rest := by
  cases es with
  | nil =>
    obtain ⟨t, rfl, hkind⟩ := Spelled.loneSymbol hs
    refine ⟨[], rfl, ?_⟩
    rw [listTail, if_pos hkind]
    exact yields_keep
  | cons e es =>
    obtain ⟨he, hes⟩ := List.forall_mem_cons.mp hes
    rw [wordsAll, List.append_assoc] at hs
    obtain ⟨mid, hse, hs⟩ := Spelled.append_iff.mp hs
    obtain ⟨es', hbareAll, htail⟩ := yields_separatedTail hclosing hes hs
    obtain ⟨e', hbare, hy⟩ :=
      yields_listTail_cons hclosing he hse (stops_of_wordsMore hclosing hs) htail
    exact ⟨e' :: es', by simp [hbare, hbareAll], hy⟩

end

theorem yields_arguments (hargs : ParseAll finish args)
    (hs : Spelled ts (argumentWords args) rest) :
    ∃ args', bareAll args' = bareAll args ∧ (arguments finish ts).Yields args' rest := by
  obtain ⟨t, mid, rfl, hkind, hs⟩ := hs.symbol
  obtain ⟨args', hbare, hy⟩ := yields_listTail (.inr rfl) hargs hs
  refine ⟨args', hbare, ?_⟩
  rw [arguments]
  exact (yields_expect hkind).andThen hy.widen

theorem yields_filterList_cons {es : List Expr} (he : e.Conformant ∧ Parses finish 0 e)
    (hs : Spelled ts e.words mid) (hstop : Stops 0 mid)
    (htail : (filterTail finish mid).Yields es rest) :
    ∃ e', e'.bare = e.bare ∧ (filterList finish ts).Yields (e' :: es) rest := by
  obtain ⟨e', hbare, hy⟩ := he.2 ts mid hs hstop
  refine ⟨e', hbare, ?_⟩
  rw [filterList]
  exact hy.andThen (htail.map _)

section

variable {es : List Expr} (hcomma : t.kind ≠ .symbol .comma) (hjoin : t.kind.joinTier? = none)
include hcomma hjoin

omit hcomma in
theorem stops_of_filterTail (hs : Spelled ts (wordsMore es) (t :: rest)) : Stops k ts := by
  cases es with
  | nil =>
    obtain rfl := Spelled.nil_iff.mp hs
    exact stops_of_kind rfl hjoin
  | cons e es =>
    obtain ⟨t', _, rfl, hkind, _⟩ := Spelled.symbol hs
    exact stops_of_kind hkind rfl

/-- What follows filters is no comma. -/
theorem yields_filterTail (hes : ParseAll finish es)
    (hs : Spelled ts (wordsMore es) (t :: rest)) :
    ∃ es', bareAll es' = bareAll es ∧ (filterTail finish ts).Yields es' (t :: rest) := by
  induction es generalizing ts with
  | nil =>
    obtain rfl := Spelled.nil_iff.mp hs
    refine ⟨[], rfl, ?_⟩
    rw [filterTail, if_neg hcomma]
    exact yields_keep
  | cons e es ih =>
    obtain ⟨he, hes⟩ := List.forall_mem_cons.mp hes
    obtain ⟨t', after, rfl, hkind, hs⟩ := Spelled.symbol hs
    obtain ⟨mid, hse, hs⟩ := Spelled.append_iff.mp hs
    obtain ⟨es', hbareAll, htail⟩ := ih hes hs
    obtain ⟨e', hbare, hy⟩ :=
      yields_filterList_cons he hse (stops_of_filterTail hjoin hs) htail
    refine ⟨e' :: es', by simp [hbare, hbareAll], ?_⟩
    rw [filterTail, if_pos hkind]
    exact hy.widen.widen

theorem yields_errorFilters (hes : ParseAll finish es)
    (hs : Spelled ts (filterWords es) (t :: rest)) :
    ∃ es', bareAll es' = bareAll es ∧ (errorFilters finish ts).Yields es' (t :: rest) := by
  cases es with
  | nil =>
    obtain ⟨t', mid, rfl, hkind, hs⟩ := Spelled.keyword hs
    obtain rfl := Spelled.nil_iff.mp hs
    refine ⟨[], rfl, ?_⟩
    rw [errorFilters, if_pos hkind]
    exact yields_keep
  | cons e es =>
    obtain ⟨he, hes⟩ := List.forall_mem_cons.mp hes
    obtain ⟨mid, hse, hs⟩ := Spelled.append_iff.mp hs
    obtain ⟨es', hbareAll, htail⟩ := yields_filterTail hcomma hjoin hes hs
    obtain ⟨e', hbare, hy⟩ :=
      yields_filterList_cons he hse (stops_of_filterTail hjoin hs) htail
    obtain ⟨t', after, rfl, hhead, _⟩ := spelled_head he.1 hse
    refine ⟨e' :: es', by simp [hbare, hbareAll], ?_⟩
    rw [errorFilters, if_neg (kind_ne_of_startsExpr hhead rfl)]
    exact hy

end

end MooScript.Expr
