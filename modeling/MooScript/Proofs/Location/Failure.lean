import MooScript.Interpreter
import MooScript.Proofs.Evaluation.Faults
import MooScript.Proofs.Location.Token
import MooScript.Proofs.Syntax.Soundness.Program

/-! Whatever fails in a run of a source text is marked in that text. -/
namespace MooScript

variable {source : String} {tokens : List Token}

theorem SyntaxError.location_eq (e : SyntaxError) : e.location = e.token.location := by
  cases e <;> rfl

/-- What a parse of the tokens of a text comes to: all tokens of a tree stand in the text, as does
the token that an error blames. -/
theorem parse_standsIn (h : Token.lex source = .ok tokens) :
    ParseTells (·.StandsIn source) (Grammar.input tokens).1 (Stmt.parse tokens) := by
  have htokens : ∀ t ∈ tokens, t.StandsIn source := fun t ht => Token.standsIn_of_lex h ht
  apply parse_tells
  · exact fun t ht => htokens t (Grammar.mem_of_mem_input ht)
  · exact Grammar.input_finish htokens fun last? => Token.endOfInput_standsIn

/-- What the tree of a text comes to: its tokens stand in the text, or else the failure does. -/
def TreeStandsIn (source : String) : Except Failure Stmt → Prop
  | .ok tree => ∀ t ∈ tree.tokens, t.StandsIn source
  | .error failure => failure.location.StandsIn source

theorem Stmt.ofSource_standsIn (source : String) : TreeStandsIn source (Stmt.ofSource source) := by
  unfold Stmt.ofSource
  cases hlex : Token.lex source with
  | error e => exact LexicalError.standsIn hlex
  | ok tokens =>
    have hparse := parse_standsIn hlex
    change TreeStandsIn source ((Stmt.parse tokens).mapError .syntactic)
    cases htree : Stmt.parse tokens with
    | error e =>
      rw [htree] at hparse
      change e.location.StandsIn source
      rw [e.location_eq]
      exact Token.StandsIn.location hparse
    | ok tree =>
      rw [htree] at hparse
      exact hparse.kept

/-- A fault of a run stands where a token of the statement stands. -/
theorem Stmt.run_standsIn {s : Stmt} {host : Host} {m : Machine} {fault : Fault}
    (hs : ∀ t ∈ s.tokens, t.StandsIn source) (h : (s.run host m).1 = .error fault) :
    fault.location.StandsIn source := by
  have hexec : Action.FaultsIn (·.StandsIn source) (s.exec host) :=
    s.faultsIn_exec host fun t ht => (hs t ht).location
  let start : Machine := { m with environment := m.environment.push }
  change ((s.exec host).run start).1.map Flow.value = .error fault at h
  cases hrun : ((s.exec host).run start).1 with
  | ok flow =>
    rw [hrun] at h
    cases h
  | error fault' =>
    rw [hrun] at h
    cases h
    exact hexec start fault hrun

/-- A failure of any stage marks whole characters of the text, at its own line and column. -/
theorem Interpreter.runSource_error_marks (i : Interpreter) (source : String) (failure : Failure)
    (h : (i.runSource source).1 = .error failure) : failure.location.Marks source := by
  apply Location.StandsIn.marks
  have htree := Stmt.ofSource_standsIn source
  unfold runSource at h
  cases hsource : Stmt.ofSource source with
  | error failure' =>
    rw [hsource] at h htree
    cases h
    exact htree
  | ok body =>
    rw [hsource] at h htree
    change (body.run i.host i.machine).1.mapError .runtime = .error failure at h
    cases hrun : (body.run i.host i.machine).1 with
    | ok value =>
      rw [hrun] at h
      cases h
    | error fault =>
      rw [hrun] at h
      cases h
      exact Stmt.run_standsIn htree hrun

/-- One failure of each stage: a character, the end of the input, and a name inside a range. -/
theorem Interpreter.runSource_error_marks_stages :
    let i := Interpreter.fresh 10
    let unread : Failure := .lexical ⟨'@', ⟨2, 2, 1⟩⟩
    let unended : Failure := .syntactic (.unexpectedEnd .expression ⟨.eof, ⟨5, 5⟩, "", ⟨2, 3⟩⟩)
    let uncalled : Failure := .runtime (.unknownFunction "g" ⟨⟨2, 9⟩, ⟨14, 15⟩⟩)
    let source := "\"é\";\nreturn [g()..2];"
    ((i.runSource "x\n@").1 = .error unread ∧ unread.location.Marks "x\n@") ∧
    ((i.runSource "f(\n1,").1 = .error unended ∧ unended.location.Marks "f(\n1,") ∧
    ((i.runSource source).1 = .error uncalled ∧ uncalled.location.Marks source) := by
  intro i unread unended uncalled source
  have hunread : (i.runSource "x\n@").1 = .error unread := by cbv
  have hunended : (i.runSource "f(\n1,").1 = .error unended := by cbv
  have huncalled : (i.runSource source).1 = .error uncalled := by cbv
  exact ⟨⟨hunread, runSource_error_marks i _ _ hunread⟩,
    ⟨hunended, runSource_error_marks i _ _ hunended⟩,
    ⟨huncalled, runSource_error_marks i _ _ huncalled⟩⟩

end MooScript
