import Mathlib
import MooScript.Interpreter
import MooScript.Proofs.Evaluation.Alike
import MooScript.Proofs.Syntax.Layout.Statement

/-! Blanks, line breaks and comments do not change what a program does; they only move what it
fails at. -/
namespace MooScript

/-- The same value, or failures that differ in their places at most. -/
inductive Failure.AlikeOutcomes : Except Failure Value → Except Failure Value → Prop
  | ok (value : Value) : AlikeOutcomes (.ok value) (.ok value)
  | error {f f' : Failure} (h : f.Alike f') : AlikeOutcomes (.error f) (.error f')

open Failure (AlikeOutcomes)

variable {source source' : String} {tokens tokens' : List Token}

theorem Interpreter.run_alike (i : Interpreter) {s s' : Stmt} (h : s.Alike s') :
    AlikeOutcomes (i.run s).1 (i.run s').1 ∧ (i.run s).2 = (i.run s').2 := by
  obtain ⟨houtcome, hmachine⟩ := Stmt.run_of_bare h i.host i.machine
  change AlikeOutcomes ((s.run i.host i.machine).1.mapError .runtime)
      ((s'.run i.host i.machine).1.mapError .runtime) ∧
    ({ i with machine := (s.run i.host i.machine).2 } : Interpreter) =
      { i with machine := (s'.run i.host i.machine).2 }
  rw [hmachine]
  refine ⟨?_, rfl⟩
  rcases Action.cases_of_unplaced houtcome with ⟨value, hvalue, hvalue'⟩ | ⟨f, f', hf, hf', hfault⟩
  · rw [hvalue, hvalue']
    exact .ok value
  · rw [hf, hf']
    exact .error (Failure.alike_of_unplaced (congrArg Failure.runtime hfault))

theorem Stmt.ofSource_of_lex (h : Token.lex source = .ok tokens) :
    Stmt.ofSource source = (Stmt.parse tokens).mapError .syntactic := by
  rw [ofSource, h]
  rfl

/-- Layout does not matter: of two sources whose tokens agree in kind and text, comments apart,
either both give the same value, or both fail alike but for the place; and both leave the same
interpreter. -/
theorem Interpreter.runSource_layout (i : Interpreter) (h : Token.lex source = .ok tokens)
    (h' : Token.lex source' = .ok tokens')
    (hcontents : Token.contents tokens = Token.contents tokens') :
    AlikeOutcomes (i.runSource source).1 (i.runSource source').1 ∧
      (i.runSource source).2 = (i.runSource source').2 := by
  unfold runSource
  rw [Stmt.ofSource_of_lex h, Stmt.ofSource_of_lex h']
  rcases Stmt.parse_alike hcontents with ⟨s, s', hs, hs', halike⟩ | ⟨e, e', he, he', herror⟩
  · rw [hs, hs']
    exact i.run_alike halike
  · rw [he, he']
    exact ⟨.error (Failure.alike_of_unplaced (congrArg Failure.syntactic herror)), rfl⟩

/-- A call of no function, on the first line and on the third one. -/
theorem Interpreter.runSource_layout_moved :
    let source := "return f(1);"
    let source' := "// what is f?\nreturn\n  f( 1 );"
    let tokens : List Token :=
      [⟨.keyword .return_, ⟨0, 6⟩, "return", ⟨1, 1⟩⟩, ⟨.identifier, ⟨7, 8⟩, "f", ⟨1, 8⟩⟩,
        ⟨.symbol .leftParen, ⟨8, 9⟩, "(", ⟨1, 9⟩⟩, ⟨.integer, ⟨9, 10⟩, "1", ⟨1, 10⟩⟩,
        ⟨.symbol .rightParen, ⟨10, 11⟩, ")", ⟨1, 11⟩⟩, ⟨.symbol .semicolon, ⟨11, 12⟩, ";", ⟨1, 12⟩⟩]
    let tokens' : List Token :=
      [⟨.comment, ⟨0, 13⟩, "// what is f?", ⟨1, 1⟩⟩,
        ⟨.keyword .return_, ⟨14, 20⟩, "return", ⟨2, 1⟩⟩, ⟨.identifier, ⟨23, 24⟩, "f", ⟨3, 3⟩⟩,
        ⟨.symbol .leftParen, ⟨24, 25⟩, "(", ⟨3, 4⟩⟩, ⟨.integer, ⟨26, 27⟩, "1", ⟨3, 6⟩⟩,
        ⟨.symbol .rightParen, ⟨28, 29⟩, ")", ⟨3, 8⟩⟩, ⟨.symbol .semicolon, ⟨29, 30⟩, ";", ⟨3, 9⟩⟩]
    let i : Interpreter := .fresh 10
    Token.lex source = .ok tokens ∧ Token.lex source' = .ok tokens' ∧
      Token.contents tokens = Token.contents tokens' ∧
      (i.runSource source).1 = .error (.runtime (.unknownFunction "f" ⟨⟨1, 8⟩, ⟨7, 8⟩⟩)) ∧
      (i.runSource source').1 = .error (.runtime (.unknownFunction "f" ⟨⟨3, 3⟩, ⟨23, 24⟩⟩)) ∧
      AlikeOutcomes (i.runSource source).1 (i.runSource source').1 ∧
      (i.runSource source).2 = (i.runSource source').2 := by
  intro source source' tokens tokens' i
  have h : Token.lex source = .ok tokens := by cbv
  have h' : Token.lex source' = .ok tokens' := by cbv
  have hcontents : Token.contents tokens = Token.contents tokens' := by decide
  exact ⟨h, h', hcontents, by cbv, by cbv, i.runSource_layout h h' hcontents⟩

end MooScript
