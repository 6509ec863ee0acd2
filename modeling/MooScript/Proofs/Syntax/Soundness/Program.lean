import Mathlib
import MooScript.Proofs.Syntax.Soundness.Statement

/-! What a token list is parsed to is what it tells; else a token of it is blamed, or its end. -/
namespace MooScript

open Grammar Reading

variable {P : Token → Prop} {tokens : List Token}

namespace Grammar

theorem input_finish_kind (tokens : List Token) : (input tokens).2.kind = .eof := by
  cases hfind : (tokens.filter (·.kind != .comment)).find? (·.kind == .eof) with
  | some t =>
    have ht := List.find?_some hfind
    simpa only [input, hfind, Option.getD_some, beq_iff_eq] using ht
  | none =>
    simp only [input, hfind, Option.getD_none]
    cases (tokens.filter (·.kind != .comment)).getLast? <;> rfl

theorem mem_of_mem_input {t : Token} (h : t ∈ (input tokens).1) : t ∈ tokens :=
  List.filter_sublist.subset ((List.takeWhile_sublist _).subset h)

/-- Without a token that ends the input, all is read but the comments. -/
theorem input_of_forall_ne_eof (h : ∀ t ∈ tokens, t.kind ≠ .eof) :
    (input tokens).1 = tokens.filter (·.kind != .comment) := by
  refine List.takeWhile_eq_self_iff.mpr fun t ht => ?_
  exact bne_iff_ne.mpr (h t (List.filter_sublist.subset ht))

/-- The token that ends the input is one of the list, or else stands behind its last token. -/
theorem input_finish (hmem : ∀ t ∈ tokens, P t)
    (hend : ∀ last? : Option Token, (∀ last ∈ last?, P last) → P (Token.endOfInput last?)) :
    P (input tokens).2 := by
  cases hfind : (tokens.filter (·.kind != .comment)).find? (·.kind == .eof) with
  | some t =>
    simp only [input, hfind, Option.getD_some]
    exact hmem t (List.filter_sublist.subset (List.mem_of_find?_eq_some hfind))
  | none =>
    simp only [input, hfind, Option.getD_none]
    refine hend _ fun last hlast => ?_
    exact hmem last (List.filter_sublist.subset (List.mem_of_getLast? hlast))

end Grammar

/-- What holds of the outcome of a parse. -/
def ParseTells (P : Token → Prop) (ts : List Token) : Except SyntaxError Stmt → Prop
  | .ok tree => TellsStmt P true ts tree []
  | .error e => P e.token

/-- A tree that the tokens tell, or an error that blames one of them. -/
theorem parse_cases (hts : ∀ t ∈ (input tokens).1, P t) (hfinish : P (input tokens).2) :
    (∃ tree, Stmt.parse tokens = .ok tree ∧ TellsStmt P true (input tokens).1 tree []) ∨
      ∃ e, Stmt.parse tokens = .error e ∧ Blames P e := by
  have hblock := block_tells hfinish (by rw [input_finish_kind]; decide) hts
  unfold Stmt.parse
  generalize hinput : input tokens = given at *
  obtain ⟨ts, finish⟩ := given
  dsimp only at *
  cases hb : block finish ts with
  | error e => exact .inr ⟨e, rfl, hblock.of_error hb⟩
  | ok p =>
    obtain ⟨program, rest, hlt⟩ := p
    have hprogram : TellsStmt P true ts program rest := hblock.of_yields ⟨hlt, hb⟩
    cases rest with
    | nil => exact .inl ⟨program, rfl, hprogram⟩
    -- A block may end in front of a word such as `endif`, which is then one too many.
    | cons t rest =>
      have ht := hprogram.respelled.forall_mem hts t List.mem_cons_self
      exact .inr ⟨_, rfl, ht, False.elim⟩

theorem parse_tells (hts : ∀ t ∈ (input tokens).1, P t) (hfinish : P (input tokens).2) :
    ParseTells P (input tokens).1 (Stmt.parse tokens) := by
  rcases parse_cases hts hfinish with ⟨tree, htree, h⟩ | ⟨e, he, h⟩
  · exact htree ▸ h
  · exact he ▸ h.token

theorem Stmt.parse_blames {e : SyntaxError} (hts : ∀ t ∈ (input tokens).1, P t)
    (hfinish : P (input tokens).2) (h : Stmt.parse tokens = .error e) : Blames P e := by
  rcases parse_cases hts hfinish with ⟨tree, htree, _⟩ | ⟨e', he, hblames⟩
  · cases h.symm.trans htree
  · cases h.symm.trans he
    exact hblames

theorem Expr.parse_blames {e : SyntaxError} (hts : ∀ t ∈ (input tokens).1, P t)
    (hfinish : P (input tokens).2) (h : Expr.parse tokens = .error e) : Blames P e := by
  have hexpr := expr_blames hfinish hts
  unfold Expr.parse at h
  generalize input tokens = given at *
  obtain ⟨ts, finish⟩ := given
  dsimp only at *
  cases hread : expr finish ts with
  | error e' =>
    rw [hread] at h
    cases h
    exact hexpr.of_error hread
  | ok p =>
    obtain ⟨e', rest, hlt⟩ := p
    have hread' := hexpr.of_yields ⟨hlt, hread⟩
    rw [hread] at h
    cases rest with
    | nil => cases h
    | cons t rest =>
      cases h
      exact ⟨hread'.respelled.forall_mem hts t List.mem_cons_self, False.elim⟩

/-- A parsed program is conformant, and it tells all tokens that it was given, each once and in
their order; comments tell nothing. -/
theorem Stmt.parse_sound {tree : Stmt} (hmem : ∀ t ∈ tokens, t.kind ≠ .eof)
    (h : Stmt.parse tokens = .ok tree) :
    tree.isBlock = true ∧ tree.Conformant ∧
      Respelled (tokens.filter (·.kind != .comment)) tree.words [] := by
  have htells : ParseTells (fun _ => True) (input tokens).1 (Stmt.parse tokens) :=
    parse_tells (fun _ _ => trivial) trivial
  rw [h, input_of_forall_ne_eof hmem] at htells
  exact ⟨htells.conformant.1, htells.conformant.2, htells.respelled⟩

/-- A loop over a range in parentheses, a comma behind the last argument and a signed number. -/
theorem Stmt.parse_sound_loop :
    let kinds : List Kind := [.keyword .for_, .identifier, .keyword .in_, .symbol .leftParen,
      .symbol .leftBracket, .integer, .symbol .dotDot, .integer, .symbol .rightBracket,
      .symbol .rightParen, .identifier, .symbol .leftParen, .symbol .hash, .symbol .minus, .integer,
      .symbol .comma, .symbol .rightParen, .comment, .keyword .endFor]
    let tokens : List Token := kinds.map (⟨·, .point 0, "1", ⟨1, 1⟩⟩)
    (∀ t ∈ tokens, t.kind ≠ .eof) ∧ ∃ tree, Stmt.parse tokens = .ok tree ∧
      tree.isBlock = true ∧ tree.Conformant ∧
      Respelled (tokens.filter (·.kind != .comment)) tree.words [] := by
  intro kinds tokens
  have hmem : ∀ t ∈ tokens, t.kind ≠ .eof := by decide
  refine ⟨hmem, ?_⟩
  cases h : Stmt.parse tokens with
  | ok tree => exact ⟨tree, rfl, Stmt.parse_sound hmem h⟩
  | error e =>
    have hok : (Stmt.parse tokens).isOk = true := by cbv
    rw [h] at hok
    cases hok

/-- An integer in parentheses, the closing one with a text of its own. -/
def grouped (closing : String) : List Token :=
  [⟨.symbol .leftParen, ⟨0, 1⟩, "(", ⟨1, 1⟩⟩, ⟨.integer, ⟨1, 2⟩, "1", ⟨1, 2⟩⟩,
    ⟨.symbol .rightParen, ⟨2, 3⟩, closing, ⟨1, 3⟩⟩]

/-- The text of a closing parenthesis is nowhere in the tree, so that nothing renders it. -/
theorem Stmt.not_exists_render :
    ¬ ∃ render : Stmt → List (Kind × String), ∀ (tokens : List Token) (tree : Stmt),
      (∀ t ∈ tokens, t.kind ∈ [Kind.symbol .leftParen, .integer, .symbol .rightParen]) →
      Stmt.parse tokens = .ok tree → render tree = tokens.map fun t => (t.kind, t.text) := by
  rintro ⟨render, hrender⟩
  let tree : Stmt := .block [.expr (.grouping
    (.literal (.integer 1) ⟨.integer, ⟨1, 2⟩, "1", ⟨1, 2⟩⟩)
    ⟨.symbol .leftParen, ⟨0, 1⟩, "(", ⟨1, 1⟩⟩)]
  have hplain := hrender (grouped ")") tree (by decide) (by cbv)
  have hodd := hrender (grouped "]") tree (by decide) (by cbv)
  exact absurd (hplain.symm.trans hodd) (by decide)

end MooScript
