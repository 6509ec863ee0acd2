import Mathlib
import MooScript.Proofs.Syntax.Completeness.Statement
import MooScript.Proofs.Syntax.Rendering

/-! Parsing gives back every conformant tree whose words a token list spells. -/
namespace MooScript

open Grammar Reading

variable {finish : Token} {tokens : List Token}

namespace Stmt

mutual

theorem stmtReads (s : Stmt) (hs : s.Conformant) (hblock : s.isBlock = false) :
    StmtReads finish s := by
  cases s with
  | expr e => exact exprStmt_reads hs
  | block body => cases hblock
  | return_ e t => exact return_reads hs
  | if_ conditions consequences otherwise t =>
    obtain ⟨hne, hlength, hconditions, hconsequences, helse⟩ := hs
    cases conditions with
    | nil => exact absurd rfl hne
    | cons condition conditions =>
      cases consequences with
      | nil => cases hlength
      | cons body bodies =>
        obtain ⟨hcondition, hconditions⟩ := hconditions
        obtain ⟨hbody, hcbody, hbodies⟩ := hconsequences
        have hbranches := branchesRead conditions bodies (Nat.succ.inj hlength) hconditions hbodies
        exact if_reads hcondition (body.blockReads hcbody hbody) hbranches
          (elseReads otherwise helse)
  | for_ var iterable body t => exact for_reads hs.1 (body.blockReads hs.2.2 hs.2.1)
  | try_ body arms t =>
    obtain ⟨hbody, hcbody, hne, harms⟩ := hs
    exact try_reads (body.blockReads hcbody hbody) hne (armsRead arms harms)

theorem blockReads (s : Stmt) (hs : s.Conformant) (hblock : s.isBlock = true) :
    BlockReads finish s := by
  cases s with
  | block body =>
    rcases hs with ⟨e, habsent, rfl⟩ | ⟨hne, hbody⟩
    · exact emptyBlock_reads habsent
    · exact block_reads hne (statementsRead body hbody)
  | _ => cases hblock

theorem statementsRead (ss : List Stmt) (hss : AllConformant ss) : StatementsRead finish ss := by
  cases ss with
  | nil => exact statements_nil
  | cons s ss =>
    obtain ⟨hblock, hs, hss⟩ := hss
    exact statements_cons (s.stmtReads hs hblock) (statementsRead ss hss)

theorem branchesRead (conditions : List Expr) (bodies : List Stmt)
    (hlength : conditions.length = bodies.length) (hconditions : Expr.AllConformant conditions)
    (hbodies : BodiesConformant bodies) : BranchesRead finish conditions bodies := by
  cases conditions with
  | nil =>
    cases bodies with
    | nil => exact branches_nil
    | cons body bodies => cases hlength
  | cons condition conditions =>
    cases bodies with
    | nil => cases hlength
    | cons body bodies =>
      obtain ⟨hcondition, hconditions⟩ := hconditions
      obtain ⟨hbody, hcbody, hbodies⟩ := hbodies
      exact branches_cons hcondition (body.blockReads hcbody hbody)
        (branchesRead conditions bodies (Nat.succ.inj hlength) hconditions hbodies)

theorem elseReads (otherwise : Option Stmt) (helse : ElseConformant otherwise) :
    ∀ body ∈ otherwise, BlockReads finish body := by
  cases otherwise with
  | none => exact fun body hbody => absurd hbody (Option.not_mem_none body)
  | some s =>
    intro body hbody
    cases hbody
    exact s.blockReads helse.2 helse.1

theorem armsRead (arms : List Arm) (harms : ArmsConformant arms) : ArmsRead finish arms := by
  cases arms with
  | nil => exact arms_nil
  | cons arm arms =>
    obtain ⟨binding, filters, body, t⟩ := arm
    obtain ⟨hfilters, hbody, hcbody, harms⟩ := harms
    exact arms_cons (Expr.parseAll filters hfilters) (body.blockReads hcbody hbody)
      (armsRead arms harms)

end

end Stmt
/-- Nothing is cut off a list that spells words. -/
theorem Grammar.input_of_spelled {ws : List Word} (hws : Voiced ws)
    (h : Spelled (tokens.filter (·.kind != .comment)) ws []) :
    (input tokens).1 = tokens.filter (·.kind != .comment) := by
  refine List.takeWhile_eq_self_iff.mpr fun t ht => ?_
  have hvoiced := h.isVoiced hws (List.forall_mem_nil _) t ht
  refine bne_iff_ne.mpr fun hkind => ?_
  rw [hkind] at hvoiced
  cases hvoiced

theorem Expr.parse_eq_ok {e : Expr}
    (h : (expr (input tokens).2 (input tokens).1).Yields e []) : Expr.parse tokens = .ok e := by
  obtain ⟨_, hexpr⟩ := h
  unfold Expr.parse
  dsimp only
  rw [hexpr]
  rfl

/-- A literal token alone is read as its value. -/
theorem Expr.parse_token {t : Token} {value : Value} (h : Syntax.literalValue? t = some value) :
    Expr.parse [t] = .ok (.literal value t) := by
  have hkind := Syntax.kind_of_literalValue? h
  have hinput : Grammar.input [t] = ([t], Token.endOfInput (some t)) := by
    rcases hkind with hkind | hkind | hkind <;> simp [Grammar.input, hkind]
  have hhead : unaryOperator? t.kind = none := by
    rcases hkind with hkind | hkind | hkind <;> rw [hkind] <;> rfl
  have hatom : (atom (Token.endOfInput (some t)) [t]).Yields (.literal value t) [] := by
    rcases hkind with hkind | hkind | hkind
    all_goals
      rw [atom, hkind]
      dsimp only
      rw [h]
      exact yields_keep
  -- Down from the tightest rule: behind the token there is nothing to go on with.
  have hrule : ∀ d k, k + d = 9 →
      (rule (Token.endOfInput (some t)) k [t]).Yields (.literal value t) [] := by
    intro d
    induction d with
    | zero =>
      rintro k rfl
      exact hatom
    | succ d ih =>
      intro k hk
      refine rule_yields_of_tail (by omega) (fun _ t' ht' => ?_) (ih (k + 1) (by omega))
        (tail_yields_of_stops stops_nil)
      cases ht'
      exact hhead
  exact Expr.parse_eq_ok (by rw [hinput]; exact hrule 9 0 rfl)

theorem Stmt.parse_eq_ok {s : Stmt}
    (h : (Grammar.block (input tokens).2 (input tokens).1).Yields s []) :
    Stmt.parse tokens = .ok s := by
  obtain ⟨_, hblock⟩ := h
  unfold Stmt.parse
  dsimp only
  rw [hblock]
  rfl

/-- Tokens that spell a conformant expression are parsed to it, and tokens that spell a conformant
block to that, apart from the tokens in the nodes; comments may stand anywhere. -/
theorem Grammar.parse_of_spelled :
    (∀ (e : Expr) (tokens : List Token), e.Conformant →
      Spelled (tokens.filter (·.kind != .comment)) e.words [] →
      ∃ e', Expr.parse tokens = .ok e' ∧ e'.bare = e.bare) ∧
    (∀ (s : Stmt) (tokens : List Token), s.isBlock = true → s.Conformant →
      Spelled (tokens.filter (·.kind != .comment)) s.words [] →
      ∃ s', Stmt.parse tokens = .ok s' ∧ s'.bare = s.bare) := by
  constructor
  · intro e tokens he hspelled
    have hinput := input_of_spelled (e.voiced_words he) hspelled
    rw [← hinput] at hspelled
    obtain ⟨e', hbare, hy⟩ := e.parses he (input tokens).1 [] hspelled stops_nil
    exact ⟨e', Expr.parse_eq_ok hy, hbare⟩
  · intro s tokens hblock hs hspelled
    have hinput := input_of_spelled (s.voiced_words hs) hspelled
    rw [← hinput] at hspelled
    have hreads : BlockReads (input tokens).2 s := s.blockReads hs hblock
    obtain ⟨s', hbare, hy⟩ := hreads (input tokens).1 [] hspelled rfl
    exact ⟨s', Stmt.parse_eq_ok hy, hbare⟩

/-- Operators that group to the left and to the right, a call on an object, and a loop that ends in
a statement without a value. -/
theorem Grammar.parse_of_spelled_loop :
    let name (text : String) : Expr := .identifier text .erased
    let sub (left right : Expr) : Expr := .binary .sub left right .erased
    let hash : Token := ⟨.symbol .hash, .point 0, "#", ⟨1, 1⟩⟩
    let comment : Token := ⟨.comment, .point 0, "//", ⟨1, 1⟩⟩
    let left : Expr := sub (name "a") (.unary .not (name "b") .erased)
    let object : Expr := .literal (.object (-7)) hash
    let right : Expr := .verbCall object "f" [.list [] .erased, name "c"] .erased
    let e : Expr := .binary .assign (name "x") (sub left right) .erased
    let spelling := comment :: e.words.map Word.token
    let s : Stmt := .block [.expr e, .for_ "y" (.range (name "a") (name "b") .erased)
      (.block [.return_ (zero .erased) .erased]) .erased]
    (e.Conformant ∧ Spelled (spelling.filter (·.kind != .comment)) e.words [] ∧
      ∃ e', Expr.parse spelling = .ok e' ∧ e'.bare = e.bare) ∧
    (s.isBlock = true ∧ s.Conformant ∧
      Spelled ((s.words.map Word.token).filter (·.kind != .comment)) s.words [] ∧
      ∃ s', Stmt.parse (s.words.map Word.token) = .ok s' ∧ s'.bare = s.bare) := by
  intro name sub hash comment left object right e spelling s
  have he : e.Conformant :=
    ⟨rfl, trivial, by decide, by decide, ⟨by decide, by decide, trivial, ⟨by decide, trivial⟩⟩,
      .inr ⟨by decide, .inr (.inr (.inr ⟨rfl, -7, rfl⟩))⟩, trivial, trivial, trivial⟩
  have hs : s.Conformant :=
    .inr ⟨List.cons_ne_nil _ _, rfl, he, rfl,
      ⟨⟨trivial, trivial⟩, rfl, .inr ⟨List.cons_ne_nil _ _, rfl, .inl rfl, trivial⟩⟩, trivial⟩
  have hspelledExpr : Spelled (spelling.filter (·.kind != .comment)) e.words [] :=
    Spelled.render e.words
  have hspelled : Spelled ((s.words.map Word.token).filter (·.kind != .comment)) s.words [] :=
    Spelled.render s.words
  exact ⟨⟨he, hspelledExpr, parse_of_spelled.1 e _ he hspelledExpr⟩,
    ⟨rfl, hs, hspelled, parse_of_spelled.2 s _ rfl hs hspelled⟩⟩

end MooScript
