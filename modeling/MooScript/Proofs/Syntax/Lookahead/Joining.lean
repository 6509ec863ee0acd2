import MooScript.Proofs.Syntax.Lookahead.Program
import MooScript.Proofs.Syntax.Lookahead.Separated
import MooScript.Proofs.Syntax.Soundness.Program

/-! Programs with semicolons between them. Behind a semicolon the rest of a program is read as if
nothing had been in front of it. -/
namespace MooScript

open Grammar Reading Run

namespace Grammar

variable {α : Type} {F : Run α} {a : α} {finish t : Token} {s : Stmt}
  {ts us used mid rest left : List Token}

/-! ### Statement by statement -/

/-- The loop over the statements of a program comes from one list to the other, and has read the
statements by then. -/
inductive Reached (finish : Token) : List Token → List Stmt → List Token → Prop
  | here {ts : List Token} : Reached finish ts [] ts
  | semicolon {t : Token} {ts back : List Token} {ss : List Stmt} (ht : t.kind = .symbol .semicolon)
    (h : Reached finish ts ss back) : Reached finish (t :: ts) ss back
  | stmt {ts rest back : List Token} {s : Stmt} {ss : List Stmt} (hstarts : StartsStmt ts)
    (hs : (stmt finish ts).Yields s rest) (h : Reached finish rest ss back) :
    Reached finish ts (s :: ss) back

abbrev statementsRun : Run (List Stmt) := ofTail statements

theorem statements_semicolon (ht : t.kind = .symbol .semicolon) :
    statementsRun finish (t :: ts) = statementsRun finish ts := by
  have hskip : skipAllRun finish (t :: ts) = skipAllRun finish ts := by
    rw [skipAllRun, ofTail, skipSemicolons, if_pos ht]
    exact outcome_widen _
  simp only [statementsRun, statements_run, Run.bind, hskip]

theorem statements_of_end (h : atBlockEnd ts = true) : statementsRun finish ts = .ok ([], ts) := by
  have hskip : skipAllRun finish ts = .ok ((), ts) :=
    (yields_skipSemicolons (startsWith_of_atBlockEnd h)).outcome
  rw [statementsRun, statements_run, bind_of_ok hskip, statementsTail_of_end h]

theorem statements_of_starts (hstarts : StartsStmt ts) : statementsRun finish ts =
    ((ofRule stmt).bind fun s => statementsRun.map (s :: ·)) finish ts := by
  have hskip : skipAllRun finish ts = .ok ((), ts) := (yields_skipSemicolons hstarts.1).outcome
  refine (congrFun (congrFun statements_run finish) ts).trans ?_
  rw [bind_of_ok hskip, statementsTailRun, hstarts.2]
  rfl

theorem statements_stmt (hstarts : StartsStmt ts) (hs : ofRule stmt finish ts = .ok (s, rest)) :
    statementsRun finish ts = (statementsRun.map (s :: ·)) finish rest :=
  (statements_of_starts hstarts).trans (bind_of_ok hs)

theorem map_map_append (ss : List Stmt) (F : Run (List Stmt)) :
    (F.map (ss ++ ·)).map (s :: ·) = F.map (s :: ss ++ ·) := by
  funext finish ts
  rw [Run.map, Run.map, Run.map]
  cases F finish ts <;> rfl

namespace Reached

variable {ss : List Stmt} {back front tail : List Token}

theorem length_le (h : Reached finish ts ss back) : back.length ≤ ts.length := by
  induction h with
  | here => exact Nat.le_refl _
  | semicolon _ _ ih => exact Nat.le_succ_of_le ih
  | stmt _ hs _ ih => exact Nat.le_trans ih (Nat.le_of_lt hs.length_lt)

theorem trans {mid : List Token} {ss' : List Stmt} (h : Reached finish ts ss mid)
    (h' : Reached finish mid ss' back) : Reached finish ts (ss ++ ss') back := by
  induction h with
  | here => exact h'
  | semicolon ht _ ih => exact .semicolon ht (ih h')
  | stmt hstarts hs _ ih => exact .stmt hstarts hs (ih h')

theorem length_lt (h : Reached finish ts ss back) (hss : ss ≠ []) : back.length < ts.length := by
  induction h with
  | here => exact absurd rfl hss
  | semicolon _ _ ih => exact Nat.lt_succ_of_lt (ih hss)
  | stmt _ hs h => exact Nat.lt_of_le_of_lt h.length_le hs.length_lt

/-- What the loop reads on the way, it reads in any case. -/
theorem statements_eq (h : Reached finish ts ss back) :
    statementsRun finish ts = statementsRun.map (ss ++ ·) finish back := by
  induction h with
  | @here ts =>
    rw [Run.map]
    cases statementsRun finish ts <;> rfl
  | semicolon ht _ ih => rw [statements_semicolon ht, ih]
  | @stmt ts rest back s ss hstarts hs _ ih =>
    rw [statements_stmt hstarts hs.outcome, ← map_map_append]
    simp only [Run.map, ih]

end Reached

/-- The statements of a program are read by the loop up to their end. -/
theorem reached_of_statements (ts : List Token) {ss : List Stmt}
    (h : statementsRun finish ts = .ok (ss, rest)) : Reached finish ts ss rest := by
  match ts with
  | [] =>
    rw [statements_of_end rfl] at h
    cases h
    exact .here
  | t :: ts =>
    by_cases ht : t.kind = .symbol .semicolon
    · rw [statements_semicolon ht] at h
      exact .semicolon ht (reached_of_statements ts h)
    by_cases hend : atBlockEnd (t :: ts) = true
    · rw [statements_of_end hend] at h
      cases h
      exact .here
    · have hstarts : StartsStmt (t :: ts) :=
        ⟨beq_eq_false_iff_ne.mpr ht, Bool.eq_false_iff.mpr hend⟩
      rw [statements_of_starts hstarts] at h
      obtain ⟨s, mid, hs, hmid⟩ := bind_eq_ok_iff.mp h
      obtain ⟨ss, hss, rfl⟩ := map_eq_ok_iff.mp hmid
      have hlength := takes_ofRule stmt hs
      exact .stmt hstarts (yields_of_outcome hs) (reached_of_statements mid hss)
termination_by ts.length
decreasing_by
  · exact Nat.lt_succ_self _
  · exact hlength

/-- The loop goes on from behind a semicolon that it would leave out, unless it does not begin. -/
theorem Reached.of_skipped {ss : List Stmt} {back : List Token} (h : Reached finish ts ss back)
    (hleft : Skipped ts left) : Reached finish left ss back ∨ (ss = [] ∧ back = ts) := by
  obtain rfl | ⟨t, ht, rfl⟩ := hleft
  · exact .inl h
  · cases h with
    | here => exact .inr ⟨rfl, rfl⟩
    | semicolon _ h => exact .inl h
    | stmt hstarts => exact absurd ht (beq_eq_false_iff_ne.mp hstarts.1)

/-- In front of the end and of every semicolon, the loop reads the tokens as the statements. -/
def Closed (front : List Token) (ss : List Stmt) : Prop :=
  ∀ finish us, Ends isSemicolon us →
    ∃ left, Skipped us left ∧ Reached finish (front ++ us) ss left

theorem closed_nil : Closed [] [] := fun _ us _ => ⟨us, .inl rfl, .here⟩

namespace Closed

variable {front behind xs : List Token} {ss ss' : List Stmt}

theorem semicolon (ht : t.kind = .symbol .semicolon) (h : Closed front ss) :
    Closed (t :: front) ss := by
  intro finish us hus
  obtain ⟨left, hleft, hread⟩ := h finish us hus
  exact ⟨left, hleft, .semicolon ht hread⟩

/-- The tokens are read from behind a semicolon of theirs that was left out, too. -/
theorem exists_reached (h : Closed front ss) (finish : Token) (hus : Ends isSemicolon us)
    (hleft : Skipped (front ++ us) left) :
    ∃ back, Skipped us back ∧ Reached finish left ss back := by
  obtain ⟨back, hback, hread⟩ := h finish us hus
  obtain hread | ⟨rfl, rfl⟩ := hread.of_skipped hleft
  · exact ⟨back, hback, hread⟩
  · have hlength := hback.length_le
    rw [List.length_append] at hlength
    obtain rfl : front = [] := List.length_eq_zero_iff.mp (by omega)
    exact ⟨left, hleft, .here⟩

/-- A statement and the statements behind it. -/
theorem stmt (hstarts : StartsStmt (t :: used))
    (hs : ∀ finish us, Ends isSemicolon us → ∃ left, Skipped (front ++ us) left ∧
      ofRule stmt finish (t :: used ++ (front ++ us)) = .ok (s, left))
    (h : Closed front ss) : Closed (t :: used ++ front) (s :: ss) := by
  intro finish us hus
  obtain ⟨left, hleft, hs⟩ := hs finish us hus
  obtain ⟨back, hback, hread⟩ := h.exists_reached finish hus hleft
  refine ⟨back, hback, ?_⟩
  rw [List.append_assoc]
  exact .stmt hstarts (yields_of_outcome hs) hread

end Closed

namespace Reached

variable {ss : List Stmt} {back front tail : List Token}

theorem eq_nil (h : Reached finish ts ss ts) : ss = [] := by
  by_contra hss
  exact Nat.lt_irrefl _ (h.length_lt hss)

/-- No statement is a semicolon. -/
theorem eq_nil_of_skipped (h : Reached finish ts ss back) (hback : Skipped ts back) :
    ss = [] := by
  obtain h | ⟨rfl, _⟩ := h.of_skipped hback
  · exact h.eq_nil
  · rfl

/-- When the rest is what stands behind the last statement, there are no others. -/
theorem eq_nil_of_separated (h : Reached finish rest ss back) (hmid : Skipped mid rest)
    (hback : Skipped mid back) : ss = [] := by
  obtain rfl | ⟨t, ht, rfl⟩ := hmid
  · exact h.eq_nil_of_skipped hback
  · obtain rfl | ⟨t', ht', heq⟩ := hback
    · exact absurd h.length_le (Nat.not_succ_le_self _)
    · obtain ⟨_, rfl⟩ := List.cons_eq_cons.mp heq
      exact h.eq_nil

/-- The last statement ends where the loop comes to, not within a semicolon. -/
theorem eq_nil_of_append {used' : List Token} (h : Reached finish rest ss back)
    (hused : Separated F (front ++ used') a mid rest) (hback : Skipped (used' ++ mid) back)
    (hends : Ends isSemicolon (used' ++ mid)) : used' = [] := by
  by_contra hne
  obtain ⟨x, used', rfl⟩ := List.exists_cons_of_ne_nil hne
  have hrest := hused.skipped.length_le
  have hlength := h.length_le
  obtain rfl | ⟨t, _, heq⟩ := hback
  · simp only [List.length_append, List.length_cons] at hlength
    omega
  · obtain ⟨rfl, hback⟩ := List.cons_eq_cons.mp heq
    rw [← hback, List.append_eq, List.length_append] at hlength
    obtain rfl : used' = [] := List.length_eq_zero_iff.mp (by omega)
    refine hused.unclosed x ?_ (beq_iff_eq.mp (hends x rfl))
    rw [List.getLast?_concat]
    rfl

/-- What the loop reads up to a semicolon or the end is read alike in front of any. -/
theorem closed (h : Reached finish ts ss back) (hts : ts = front ++ tail)
    (hback : Skipped tail back) (htail : Ends isSemicolon tail) : Closed front ss := by
  induction h generalizing front with
  | @here ts =>
    have hlength := hback.length_le
    rw [hts, List.length_append] at hlength
    obtain rfl : front = [] := List.length_eq_zero_iff.mp (by omega)
    exact closed_nil
  | @semicolon t ts back ss ht h ih =>
    cases front with
    | nil =>
      obtain rfl : ss = [] := (Reached.semicolon ht h).eq_nil_of_skipped (hts ▸ hback)
      exact closed_nil
    | cons t' front =>
      obtain ⟨rfl, hts'⟩ := List.cons_eq_cons.mp hts
      exact (ih hts' hback).semicolon ht
  | @stmt ts rest back s ss hstarts hs h ih =>
    obtain ⟨t, used, mid, rfl, hused⟩ := stmt_separated hs.outcome
    -- Where the statement is followed by nothing else of `front`.
    have hlast (hmid : mid = tail) : Closed (t :: used ++ []) (s :: ss) := by
      subst hmid
      obtain rfl : ss = [] := h.eq_nil_of_separated hused.skipped hback
      exact closed_nil.stmt hstarts fun finish us hus => hused.reads htail finish us hus
    rcases List.append_eq_append_iff.mp hts with ⟨front', rfl, hmid⟩ | ⟨used', hused', htail'⟩
    · cases front' with
      | nil => exact hlast hmid
      | cons x front' =>
        subst hmid
        refine Closed.stmt hstarts
          (fun finish' us _ => hused.exists_left hs.outcome finish' (front' ++ us)) ?_
        obtain rfl | ⟨x', hx', hrest⟩ := hused.skipped
        · exact ih rfl hback
        · obtain ⟨rfl, hfront⟩ := List.cons_eq_cons.mp hrest
          exact (ih hfront.symm hback).semicolon hx'
    · subst htail'
      obtain rfl : used' = [] := h.eq_nil_of_append (hused' ▸ hused) hback htail
      rw [List.append_nil] at hused'
      rw [← hused', ← List.append_nil (t :: used)]
      exact hlast rfl

end Reached

namespace Closed

variable {front behind xs : List Token} {ss ss' : List Stmt}

theorem of_statements (h : statementsRun finish ts = .ok (ss, [])) : Closed ts ss :=
  (reached_of_statements ts h).closed (List.append_nil ts).symm (.inl rfl) ends_nil

theorem statements_eq (h : Closed ts ss) (finish : Token) :
    statementsRun finish ts = .ok (ss, []) := by
  obtain ⟨left, hleft, hread⟩ := h finish [] ends_nil
  rw [List.append_nil] at hread
  obtain rfl | ⟨t, _, hleft⟩ := hleft
  · rw [hread.statements_eq, map_of_ok (statements_of_end rfl), List.append_nil]
  · cases hleft

theorem append (h : Closed front ss) (h' : Closed behind ss') (hends : Ends isSemicolon behind) :
    Closed (front ++ behind) (ss ++ ss') := by
  intro finish us hus
  have hends : Ends isSemicolon (behind ++ us) := by
    cases behind with
    | nil => exact hus
    | cons t behind => exact ends_cons (hends t rfl)
  obtain ⟨left, hleft, hread⟩ := h finish (behind ++ us) hends
  obtain ⟨back, hback, hread'⟩ := h'.exists_reached finish hus hleft
  refine ⟨back, hback, ?_⟩
  rw [List.append_assoc]
  exact hread.trans hread'

theorem semicolons_append (h : Closed ts ss) (hxs : ∀ t ∈ xs, t.kind = .symbol .semicolon) :
    Closed (xs ++ ts) ss := by
  induction xs with
  | nil => exact h
  | cons x xs ih =>
    obtain ⟨hx, hxs⟩ := List.forall_mem_cons.mp hxs
    exact (ih hxs).semicolon hx

end Closed

theorem ends_semicolons {xs : List Token} (hxs : ∀ t ∈ xs, t.kind = .symbol .semicolon)
    (hts : Ends isSemicolon ts) : Ends isSemicolon (xs ++ ts) := by
  cases xs with
  | nil => exact hts
  | cons x xs => exact ends_cons (beq_iff_eq.mpr (hxs x List.mem_cons_self))

/-- Only semicolons are read as no statements. -/
theorem Reached.forall_semicolon (h : Reached finish ts [] []) :
    ∀ t ∈ ts, t.kind = .symbol .semicolon := by
  generalize hss : ([] : List Stmt) = ss at h
  generalize hback : ([] : List Token) = back at h
  induction h with
  | here =>
    subst hback
    exact List.forall_mem_nil _
  | semicolon ht _ ih => exact List.forall_mem_cons.mpr ⟨ht, ih hss hback⟩
  | stmt => cases hss

end Grammar

namespace Stmt

variable {tokens : List Token} {body : List Stmt}

/-- The tokens are read as the statements, all of them. -/
def ReadAs (tokens : List Token) (ss : List Stmt) : Prop :=
  statementsRun (input tokens).2 (input tokens).1 = .ok (ss, [])

theorem ReadAs.closed {ss : List Stmt} (h : ReadAs tokens ss) : Closed (input tokens).1 ss :=
  .of_statements h

/-- The tokens, none of which ends the input and some of which are neither comments nor semicolons,
are the program of the statements. -/
structure IsProgram (tokens : List Token) (body : List Stmt) : Prop where
  complete : ∀ t ∈ tokens, t.kind ≠ .eof
  nonempty : ∃ t ∈ tokens, t.kind ≠ .comment ∧ t.kind ≠ .symbol .semicolon
  parsed : Stmt.parse tokens = .ok (.block body)

theorem parse_of_closed (h : Closed (input tokens).1 body) (hbody : body ≠ []) :
    Stmt.parse tokens = .ok (.block body) := by
  have hstatements : ofTail statements (input tokens).2 (input tokens).1 = .ok (body, []) :=
    h.statements_eq _
  have hblock : ofTail Grammar.block (input tokens).2 (input tokens).1 = .ok (.block body, []) := by
    rw [block_run, hstatements]
    cases body with
    | nil => exact absurd rfl hbody
    | cons s body => rfl
  rw [parse_eq_programRun, programRun, bind_of_ok hblock]
  rfl

theorem IsProgram.input_eq (h : IsProgram tokens body) :
    (input tokens).1 = tokens.filter (·.kind != .comment) :=
  input_of_forall_ne_eof h.complete

/-- A program is what its statements make; in place of none there is one made up. -/
theorem exists_readAs {tree : Stmt} (h : Stmt.parse tokens = .ok tree) :
    ∃ ss, ReadAs tokens ss ∧
      tree = .block (orZero ((input tokens).1.headD (input tokens).2) ss) := by
  rw [parse_eq_programRun] at h
  cases hprogram : programRun (input tokens).2 (input tokens).1 with
  | error e =>
    rw [hprogram] at h
    cases h
  | ok p =>
    obtain ⟨program, rest⟩ := p
    obtain ⟨program', mid, hblock, hend⟩ := bind_eq_ok_iff.mp hprogram
    rw [hprogram] at h
    cases h
    rw [endRun] at hend
    split at hend
    next hmid =>
      cases hend
      obtain rfl := List.isEmpty_iff.mp hmid
      rw [block_run] at hblock
      cases hstatements : ofTail statements (input tokens).2 (input tokens).1 with
      | error e =>
        rw [hstatements] at hblock
        cases hblock
      | ok p =>
        obtain ⟨ss, rest'⟩ := p
        rw [hstatements] at hblock
        cases hblock
        exact ⟨ss, hstatements, rfl⟩
    next => cases hend

theorem IsProgram.readAs (h : IsProgram tokens body) : ReadAs tokens body ∧ body ≠ [] := by
  obtain ⟨ss, hread, hbody⟩ := exists_readAs h.parsed
  cases ss with
  | nil =>
    obtain ⟨t, ht, hcomment, hsemicolon⟩ := h.nonempty
    refine absurd ((reached_of_statements _ hread).forall_semicolon t ?_) hsemicolon
    rw [h.input_eq]
    exact List.mem_filter.mpr ⟨ht, bne_iff_ne.mpr hcomment⟩
  | cons s ss =>
    cases hbody
    exact ⟨hread, List.cons_ne_nil s ss⟩

/-- A semicolon between the statements of a program, not within one: the loop over the statements
comes to stand behind it. -/
def Between (front : List Token) (s : Token) (back : List Token) : Prop :=
  s.kind = .symbol .semicolon ∧ ∃ read,
    Reached (input (front ++ s :: back)).2 (input (front ++ s :: back)).1 read (input back).1

theorem input_append_of_complete {ts₁ : List Token} (h : ∀ t ∈ ts₁, t.kind ≠ .eof)
    (ts₂ : List Token) : (input (ts₁ ++ ts₂)).1 = (input ts₁).1 ++ (input ts₂).1 := by
  have hkept : ∀ t ∈ ts₁.filter (·.kind != .comment), (t.kind != .eof) = true := fun t ht =>
    bne_iff_ne.mpr (h t (List.mem_filter.mp ht).1)
  rw [input_of_forall_ne_eof h]
  change ((ts₁ ++ ts₂).filter (·.kind != .comment)).takeWhile (·.kind != .eof) = _
  rw [List.filter_append, List.takeWhile_append_of_pos hkept]
  rfl

theorem input_semicolons_append {xs : List Token} (hxs : ∀ t ∈ xs, t.kind = .symbol .semicolon)
    (ts : List Token) : (input (xs ++ ts)).1 = xs ++ (input ts).1 :=
  input_append fun t ht => by rw [hxs t ht]; rfl

/-- A semicolon of a program stands between its statements when what is in front of it and what is
behind it are statements on their own. -/
theorem IsProgram.between_iff {front back : List Token} {s : Token}
    (h : IsProgram (front ++ s :: back) body) (hs : s.kind = .symbol .semicolon) :
    Between front s back ↔ ∃ a b, body = a ++ b ∧ ReadAs front a ∧ ReadAs back b := by
  have hfront : ∀ t ∈ front, t.kind ≠ .eof := (List.forall_mem_append.mp h.complete).1
  have hinput : (input (front ++ s :: back)).1 = (input front).1 ++ s :: (input back).1 := by
    rw [← List.singleton_append, input_append_of_complete hfront,
      input_semicolons_append (List.forall_mem_singleton.mpr hs)]
    rfl
  have hends : Ends isSemicolon (s :: (input back).1) := ends_cons (beq_iff_eq.mpr hs)
  constructor
  · rintro ⟨_, read, hreached⟩
    have hread : statementsRun _ _ = _ := h.readAs.1
    rw [hreached.statements_eq] at hread
    obtain ⟨left, hleft, rfl⟩ := map_eq_ok_iff.mp hread
    exact ⟨read, left, rfl, (hreached.closed hinput (.inr ⟨s, hs, rfl⟩) hends).statements_eq _,
      (Closed.of_statements hleft).statements_eq _⟩
  · rintro ⟨a, b, rfl, ha, _⟩
    obtain ⟨left, hleft, hreached⟩ := ha.closed (input (front ++ s :: back)).2 _ hends
    rw [← hinput] at hreached
    obtain rfl | ⟨t, _, heq⟩ := hleft
    · exact ⟨hs, _, hreached.trans (.semicolon hs .here)⟩
    · obtain ⟨rfl, rfl⟩ := List.cons_eq_cons.mp heq
      exact ⟨hs, a, hreached⟩

/-- Programs are joined by a semicolon, and the tree, with the tokens in it, is that of the
statements of both. More semicolons in front of a program, behind it, or next to one between its
statements, change nothing. -/
theorem parse_join {ts₁ : List Token} {a : List Stmt} (h₁ : IsProgram ts₁ a) :
    (∀ ts₂ b s, IsProgram ts₂ b → s.kind = .symbol .semicolon →
      Stmt.parse (ts₁ ++ [s] ++ ts₂) = .ok (.block (a ++ b))) ∧
    ∀ xs ys : List Token, (∀ t ∈ xs, t.kind = .symbol .semicolon) →
      (∀ t ∈ ys, t.kind = .symbol .semicolon) →
      Stmt.parse (xs ++ ts₁ ++ ys) = .ok (.block a) ∧
      ∀ front s back, ts₁ = front ++ s :: back → Between front s back →
        Stmt.parse (front ++ xs ++ s :: (ys ++ back)) = .ok (.block a) := by
  obtain ⟨hread, hne⟩ := h₁.readAs
  refine ⟨fun ts₂ b s h₂ hs => ?_, fun xs ys hxs hys => ⟨?_, ?_⟩⟩
  · have hlone : ∀ t ∈ [s], t.kind = .symbol .semicolon := List.forall_mem_singleton.mpr hs
    have hbehind := h₂.readAs.1.closed.semicolons_append hlone
    refine parse_of_closed ?_ (List.append_ne_nil_of_left_ne_nil hne b)
    rw [List.append_assoc, input_append_of_complete h₁.complete, input_semicolons_append hlone]
    exact hread.closed.append hbehind (ends_cons (beq_iff_eq.mpr hs))
  · have hbehind : Closed (ys ++ []) [] := closed_nil.semicolons_append hys
    refine parse_of_closed ?_ hne
    rw [List.append_assoc, input_semicolons_append hxs, input_append_of_complete h₁.complete,
      ← List.append_nil ys, input_semicolons_append hys, ← List.append_nil a]
    exact (hread.closed.append hbehind (ends_semicolons hys ends_nil)).semicolons_append hxs
  · rintro front s back rfl hbetween
    have hs := hbetween.1
    have hlone : ∀ t ∈ [s], t.kind = .symbol .semicolon := List.forall_mem_singleton.mpr hs
    obtain ⟨before, after, rfl, hbefore, hafter⟩ := (h₁.between_iff hs).mp hbetween
    have hbehind : Closed (xs ++ ([s] ++ (ys ++ (input back).1))) after :=
      ((hafter.closed.semicolons_append hys).semicolons_append hlone).semicolons_append hxs
    refine parse_of_closed ?_ hne
    rw [List.append_assoc, ← List.singleton_append,
      input_append_of_complete (List.forall_mem_append.mp h₁.complete).1,
      input_semicolons_append hxs, input_semicolons_append hlone, input_semicolons_append hys]
    exact hbefore.closed.append hbehind (ends_semicolons hxs (ends_cons (beq_iff_eq.mpr hs)))

/-- A bare return behind a comment, a branch with nothing in it, and semicolons around them. -/
theorem parse_join_return :
    let semicolon : Token := Kind.token (.symbol .semicolon)
    let comment : Token := Kind.token .comment
    let word : Token := Kind.token (.keyword .return_)
    let opening : Token := Kind.token (.keyword .if_)
    let closing : Token := Kind.token (.keyword .endIf)
    let number : Expr := .literal (.integer 0) zeroToken
    let ts₁ : List Token := [zeroToken, semicolon, comment, word]
    let ts₂ : List Token := [opening, Kind.token (.symbol .leftParen), zeroToken,
      Kind.token (.symbol .rightParen), closing]
    let a : List Stmt := [.expr number, .return_ (zero word) word]
    let b : List Stmt := [.if_ [number] [.block [.expr (zero closing)]] none opening]
    (IsProgram ts₁ a ∧ IsProgram ts₂ b ∧ Between [zeroToken] semicolon [comment, word]) ∧
      Stmt.parse (ts₁ ++ [semicolon] ++ ts₂) = .ok (.block (a ++ b)) ∧
      Stmt.parse ([semicolon] ++ ts₁ ++ [semicolon, semicolon]) = .ok (.block a) ∧
      Stmt.parse ([zeroToken] ++ [semicolon] ++ semicolon ::
        ([semicolon, semicolon] ++ [comment, word])) = .ok (.block a) := by
  intro semicolon comment word opening closing number ts₁ ts₂ a b
  have h₁ : IsProgram ts₁ a := ⟨by decide, by decide, by cbv⟩
  have h₂ : IsProgram ts₂ b := ⟨by decide, by decide, by cbv⟩
  have hbetween : Between [zeroToken] semicolon [comment, word] :=
    ⟨rfl, [.expr number], .stmt ⟨rfl, rfl⟩ ⟨by decide, by cbv⟩ .here⟩
  have hone : ∀ t ∈ [semicolon], t.kind = .symbol .semicolon := by decide
  have htwo : ∀ t ∈ [semicolon, semicolon], t.kind = .symbol .semicolon := by decide
  obtain ⟨hjoin, hmore⟩ := parse_join h₁
  obtain ⟨haround, hinside⟩ := hmore [semicolon] [semicolon, semicolon] hone htwo
  exact ⟨⟨h₁, h₂, hbetween⟩, hjoin ts₂ b semicolon h₂ rfl, haround,
    hinside [zeroToken] semicolon [comment, word] rfl hbetween⟩

end Stmt
end MooScript
