import MooScript.Proofs.Syntax.Lookahead.Statement

/-! A syntax error is found at the first token with which the input stops to begin a program. -/
namespace MooScript

open Grammar Run

variable {t finish : Token} {ts u : List Token} {e : SyntaxError} {tree : Stmt}

namespace Grammar

/-- Behind a program there is nothing. -/
def endRun (program : Stmt) : Run Stmt := fun finish ts =>
  if ts.isEmpty then .ok (program, ts) else fail finish .statement ts

def programRun : Run Stmt := (ofTail block).bind endRun

/-- No kind may follow. -/
def noKind (_ : Kind) : Bool := false

theorem Ends.eq_nil (h : Ends noKind ts) : ts = [] := by
  cases ts with
  | nil => rfl
  | cons t ts => cases h t rfl

theorem end_ready (program : Stmt) : Ready noKind (endRun program) [] := by
  refine ⟨.keep fun finish rest h => ⟨program, ?_⟩, ?_, fun h => absurd rfl h⟩
  · rw [h.eq_nil]
    rfl
  · intro finish ts s rest h
    rw [endRun] at h
    split at h
    · cases h
      exact Nat.le_refl _
    · cases h

theorem end_decided (program : Stmt) : Decided noKind (endRun program) finish ts := by
  have hready := (end_ready program).toFinishes
  cases ts with
  | nil => exact .kept_nil hready rfl
  | cons t ts => exact .blamed hready (.inl ⟨.statement, rfl⟩) fun _ _ => rfl

theorem program_decided : Decided noKind programRun finish ts := by
  refine block_decided.bind (fun program _ _ => end_decided program)
    (fun program _ => end_ready program) fun rest h => ?_
  rw [h.eq_nil]
  exact ends_nil

theorem isVoiced_iff {k : Kind} : k.isVoiced = true ↔ k ≠ .comment ∧ k ≠ .eof := by
  cases k <;> simp [Kind.isVoiced]

/-- Comments are left out and the input is cut behind tokens that are neither. -/
theorem input_append (hts : ∀ t ∈ ts, t.kind.isVoiced = true) :
    (input (ts ++ u)).1 = ts ++ (input u).1 := by
  have hkept : ts.filter (·.kind != .comment) = ts :=
    List.filter_eq_self.mpr fun t ht => bne_iff_ne.mpr (isVoiced_iff.mp (hts t ht)).1
  have hread : ∀ t ∈ ts, (t.kind != .eof) = true := fun t ht =>
    bne_iff_ne.mpr (isVoiced_iff.mp (hts t ht)).2
  change ((ts ++ u).filter (·.kind != .comment)).takeWhile (·.kind != .eof) = _
  rw [List.filter_append, hkept, List.takeWhile_append_of_pos hread]
  rfl

theorem input_of_voiced (hts : ∀ t ∈ ts, t.kind.isVoiced = true) : (input ts).1 = ts := by
  have happend := input_append (u := []) hts
  rwa [List.append_nil, show (input []).1 = [] from rfl, List.append_nil] at happend

theorem parse_eq_programRun (tokens : List Token) :
    Stmt.parse tokens = (programRun (input tokens).2 (input tokens).1).map (·.1) := by
  unfold Stmt.parse
  generalize input tokens = given
  obtain ⟨ts, finish⟩ := given
  dsimp only
  cases h : block finish ts with
  | error e =>
    have hrun : ofTail block finish ts = .error e := by rw [ofTail, h]; rfl
    rw [programRun, bind_of_error hrun]
    rfl
  | ok p =>
    obtain ⟨program, rest, hlt⟩ := p
    have hrun : ofTail block finish ts = .ok (program, rest) := by rw [ofTail, h]; rfl
    rw [programRun, bind_of_ok hrun]
    change (if rest.isEmpty then pure program else fail finish .statement rest) =
      (if rest.isEmpty then .ok (program, rest) else fail finish .statement rest).map (·.1)
    split <;> rfl

theorem parse_append (hts : ∀ t ∈ ts, t.kind.isVoiced = true) :
    Stmt.parse (ts ++ u) =
      (programRun (input (ts ++ u)).2 (ts ++ (input u).1)).map (·.1) := by
  rw [parse_eq_programRun, input_append hts]

end Grammar

namespace Stmt

/-- With some tokens behind them, the tokens are a program. -/
def Begins (ts : List Token) : Prop := ∃ u tree, Stmt.parse (ts ++ u) = .ok tree

theorem Begins.take {i j : Nat} (h : Begins (ts.take i)) (hij : j ≤ i) : Begins (ts.take j) := by
  obtain ⟨u, tree, htree⟩ := h
  refine ⟨(ts.take i).drop j ++ u, tree, ?_⟩
  have hsplit : ts.take j ++ (ts.take i).drop j = ts.take i := by
    have htake : ts.take j = (ts.take i).take j := by rw [List.take_take, Nat.min_eq_left hij]
    rw [htake, List.take_append_drop]
  rwa [← List.append_assoc, hsplit]

theorem begins_of_finishes {used u : List Token} (hused : ∀ t ∈ used, t.kind.isVoiced = true)
    (h : Finishes noKind (programRun.behind used) u) : Begins used := by
  obtain ⟨tree, htree⟩ := h.reads (input (used ++ u)).2 [] ends_nil
  refine ⟨u, tree, ?_⟩
  rw [parse_append hused, input_of_voiced h.voiced]
  rw [behind, List.append_nil] at htree
  rw [htree]
  rfl

/-- The token with which an input stops to begin a program: up to it the input begins one, and
whatever follows it, the error is the same. -/
structure Blames (ts : List Token) (e : SyntaxError) (i : Nat) : Prop where
  same : ∀ u, Stmt.parse (ts.take (i + 1) ++ u) = .error e
  begins : ∀ j, Begins (ts.take j) ↔ j ≤ i

theorem blames_of_rejects {used rest : List Token}
    (hts : ∀ t' ∈ used ++ t :: rest, t'.kind.isVoiced = true)
    (h : Rejects noKind programRun used e (t :: rest)) :
    Blames (used ++ t :: rest) e used.length := by
  have hused : ∀ t ∈ used, t.kind.isVoiced = true := (List.forall_mem_append.mp hts).1
  have hbehind : ∀ t' ∈ used ++ [t], t'.kind.isVoiced = true := by
    refine List.forall_mem_append.mpr ⟨hused, List.forall_mem_singleton.mpr ?_⟩
    exact hts t (List.mem_append_right _ List.mem_cons_self)
  have htake : (used ++ t :: rest).take (used.length + 1) = used ++ [t] := by
    rw [List.take_length_add_append]
    rfl
  have hsame : ∀ u, Stmt.parse ((used ++ t :: rest).take (used.length + 1) ++ u) = .error e := by
    intro u
    have hrun := h.same t rfl (input (used ++ [t] ++ u)).2 (input u).1
    rw [htake, parse_append hbehind, List.append_assoc used [t] (input u).1]
    rw [List.singleton_append, hrun]
    rfl
  refine ⟨hsame, fun j => ⟨fun hj => ?_, fun hj => ?_⟩⟩
  · refine Nat.le_of_not_lt fun hlt => ?_
    obtain ⟨u, tree, htree⟩ := hj.take (show used.length + 1 ≤ j from hlt)
    rw [hsame u] at htree
    cases htree
  · obtain ⟨u, hu⟩ := h.finishes
    have hbegins := begins_of_finishes hused hu
    have htake : (used ++ t :: rest).take used.length = used := List.take_left
    rw [← htake] at hbegins
    exact hbegins.take hj

/-- What an error says of the tokens: at their end they begin a program, or else one of them is to
blame. An assignment to what is no name is blamed on the equals sign, though the error reports the
token in front of it. -/
def Locates (ts : List Token) : SyntaxError → Prop
  | .unexpectedEnd _ _ => Begins ts
  | .unexpectedToken expected t =>
    ∃ i, ts[i]? = some t ∧ Blames ts (.unexpectedToken expected t) i
  | .invalidAssignment target =>
    ∃ i t, ts[i]? = some t ∧ t.kind = .symbol .equal ∧ Blames ts (.invalidAssignment target) i

theorem parse_error_locates (hts : ∀ t ∈ ts, t.kind ≠ .comment ∧ t.kind ≠ .eof)
    (h : Stmt.parse ts = .error e) : Locates ts e := by
  have hvoiced : ∀ t ∈ ts, t.kind.isVoiced = true := fun t ht => isVoiced_iff.mpr (hts t ht)
  rw [parse_eq_programRun, input_of_voiced hvoiced] at h
  have hdecided : Decided noKind programRun (input ts).2 ts := program_decided
  cases hdecided with
  | accepted _ hok _ =>
    rw [hok] at h
    cases h
  | @rejected used rest e' hsplit herror hused =>
    rw [herror] at h
    cases h
    subst hsplit
    cases rest with
    | nil =>
      obtain ⟨expected, finish, rfl⟩ := hused.reports
      obtain ⟨u, hu⟩ := hused.finishes
      rw [List.append_nil] at hvoiced ⊢
      exact begins_of_finishes hvoiced hu
    | cons t rest =>
      have hat : (used ++ t :: rest)[used.length]? = some t := by simp
      have hblames := blames_of_rejects hvoiced hused
      obtain ⟨expected, rfl⟩ | ⟨ht, target, rfl⟩ := hused.reports
      · exact ⟨used.length, hat, hblames⟩
      · exact ⟨used.length, t, hat, ht, hblames⟩

/-- An assignment to a number in an open list, a loop over a number, and a handler without its
errors. -/
theorem parse_error_locates_number :
    let target : List Token := [Kind.token (.symbol .leftBrace), zeroToken,
      Kind.token (.symbol .equal), zeroToken]
    let loop : List Token := [Kind.token (.keyword .for_), Kind.token .identifier,
      Kind.token (.keyword .in_), zeroToken]
    let handler : List Token := [Kind.token (.keyword .try_), Kind.token (.keyword .except),
      Kind.token (.symbol .leftParen)]
    ((∀ t ∈ target, t.kind ≠ .comment ∧ t.kind ≠ .eof) ∧
      Stmt.parse target = .error (.invalidAssignment zeroToken) ∧
      Locates target (.invalidAssignment zeroToken)) ∧
    ((∀ t ∈ loop, t.kind ≠ .comment ∧ t.kind ≠ .eof) ∧
      Stmt.parse loop = .error (.unexpectedToken .iterable zeroToken) ∧
      Locates loop (.unexpectedToken .iterable zeroToken)) ∧
    ((∀ t ∈ handler, t.kind ≠ .comment ∧ t.kind ≠ .eof) ∧
      Stmt.parse handler = .error (.unexpectedEnd .expression (.endOfInput handler.getLast?)) ∧
      Begins handler) := by
  intro target loop handler
  have htarget : ∀ t ∈ target, t.kind ≠ .comment ∧ t.kind ≠ .eof := by decide
  have hloop : ∀ t ∈ loop, t.kind ≠ .comment ∧ t.kind ≠ .eof := by decide
  have hhandler : ∀ t ∈ handler, t.kind ≠ .comment ∧ t.kind ≠ .eof := by decide
  have herrorTarget : Stmt.parse target = .error (.invalidAssignment zeroToken) := by cbv
  have herrorLoop : Stmt.parse loop = .error (.unexpectedToken .iterable zeroToken) := by cbv
  have herrorHandler : Stmt.parse handler =
      .error (.unexpectedEnd .expression (.endOfInput handler.getLast?)) := by cbv
  exact ⟨⟨htarget, herrorTarget, parse_error_locates htarget herrorTarget⟩,
    ⟨hloop, herrorLoop, parse_error_locates hloop herrorLoop⟩,
    ⟨hhandler, herrorHandler, parse_error_locates hhandler herrorHandler⟩⟩

end Stmt
end MooScript
