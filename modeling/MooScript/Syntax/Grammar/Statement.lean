import MooScript.Syntax.Grammar.Expression

/-! The grammar of statements and programs. -/
namespace MooScript.Grammar

/-- Kinds that end a block, as the end of input does. -/
def endsBlock : Kind → Bool
  | .keyword .elseIf | .keyword .else_ | .keyword .endIf | .keyword .endFor
  | .keyword .except | .keyword .endTry => true
  | _ => false

def atBlockEnd : List Token → Bool
  | [] => true
  | t :: _ => endsBlock t.kind

/-- Takes semicolons as long as there are any. -/
def skipSemicolons (ts : List Token) : Tail Unit ts :=
  match ts with
  | [] => .keep () []
  | t :: ts =>
    if t.kind = .symbol .semicolon then .widen (skipSemicolons ts) else .keep () (t :: ts)

/-- Takes the name that an error is bound to, if there is one. -/
def bindingName (ts : List Token) : Tail (Option String) ts :=
  match ts with
  | [] => .keep none []
  | t :: ts =>
    if t.kind = .identifier then .widen (.keep (some t.text) ts) else .keep none (t :: ts)

/-- What stands where a value is missing. -/
def zero (token : Token) : Expr := .literal (.integer 0) token

/-- An empty block still has a value. -/
def orZero (start : Token) : List Stmt → List Stmt
  | [] => [.expr (zero start)]
  | body => body

section

variable (finish : Token)

/-- An expression in parentheses. -/
def condition (ts : List Token) : Rule Expr ts :=
  (expect finish (.symbol .leftParen) ts).andThen fun _ rest _ =>
  (expr finish rest).widen.andThen fun e rest _ =>
  (expect finish (.symbol .rightParen) rest).widen.map fun _ => e

/-- What a loop runs over: a range literal or an expression in parentheses. -/
def iterable (ts : List Token) : Rule Expr ts :=
  match ts with
  | [] => fail finish .iterable []
  | t :: ts =>
    if t.kind = .symbol .leftBracket then atom finish (t :: ts)
    else if t.kind = .symbol .leftParen then condition finish (t :: ts)
    else fail finish .iterable (t :: ts)

/-- What a return statement returns. -/
def returned (token : Token) (ts : List Token) : Tail Expr ts :=
  if startsWith (.symbol .semicolon) ts || atBlockEnd ts then .keep (zero token) ts
  else (expr finish ts).widen

def exprStmt (ts : List Token) : Rule Stmt ts :=
  (expr finish ts).andThen fun e rest _ => (skip (.symbol .semicolon) rest).map fun _ => .expr e

mutual

def block (ts : List Token) : Tail Stmt ts :=
  (statements ts).map fun body => .block (orZero (ts.headD finish) body)
termination_by 4 * ts.length + 3

def statements (ts : List Token) : Tail (List Stmt) ts :=
  (skipSemicolons ts).andThen fun _ rest _ =>
    if atBlockEnd rest then .keep [] rest
    else
      .widen <| (stmt rest).andThen fun s rest _ => (statements rest).map (s :: ·)
termination_by 4 * ts.length + 2

def stmt (ts : List Token) : Rule Stmt ts :=
  match ts with
  | [] => exprStmt finish []
  | t :: ts => match t.kind with
    | .keyword .return_ =>
      (returned finish t ts).andThen fun e rest _ =>
        (skip (.symbol .semicolon) rest).map fun _ => .return_ e t
    | .keyword .if_ =>
      (condition finish ts).widen.andThen fun c rest _ =>
      (block rest).andThen fun body rest _ =>
      (branchTail rest).andThen fun branches rest _ =>
      (elseTail rest).andThen fun otherwise rest _ =>
      (expect finish (.keyword .endIf) rest).widen.map fun _ =>
        .if_ (c :: branches.map Prod.fst) (body :: branches.map Prod.snd) otherwise t
    | .keyword .for_ =>
      (expect finish .identifier ts).widen.andThen fun var rest _ =>
      (expect finish (.keyword .in_) rest).widen.andThen fun _ rest _ =>
      (iterable finish rest).widen.andThen fun items rest _ =>
      (block rest).andThen fun body rest _ =>
      (expect finish (.keyword .endFor) rest).widen.map fun _ =>
        .for_ var.text items body t
    | .keyword .try_ =>
      (block ts).andThen fun body rest _ =>
      (armTail rest).andThen fun arms rest _ =>
      if arms.isEmpty then fail finish (.kind (.keyword .except)) rest
      else (expect finish (.keyword .endTry) rest).widen.map fun _ => .try_ body arms t
    | _ => exprStmt finish (t :: ts)
termination_by 4 * ts.length + 1

def branchTail (ts : List Token) : Tail (List (Expr × Stmt)) ts :=
  match ts with
  | [] => .keep [] []
  | t :: ts =>
    if t.kind = .keyword .elseIf then
      .widen <| (condition finish ts).widen.andThen fun c rest _ =>
      (block rest).andThen fun body rest _ =>
      (branchTail rest).map ((c, body) :: ·)
    else .keep [] (t :: ts)
termination_by 4 * ts.length

def elseTail (ts : List Token) : Tail (Option Stmt) ts :=
  match ts with
  | [] => .keep none []
  | t :: ts =>
    if t.kind = .keyword .else_ then (block ts).widen.map some else .keep none (t :: ts)
termination_by 4 * ts.length

def armTail (ts : List Token) : Tail (List Arm) ts :=
  match ts with
  | [] => .keep [] []
  | t :: ts =>
    if t.kind = .keyword .except then
      .widen <| (bindingName ts).andThen fun binding rest _ =>
      (expect finish (.symbol .leftParen) rest).widen.andThen fun _ rest _ =>
      (errorFilters finish rest).widen.andThen fun filters rest _ =>
      (expect finish (.symbol .rightParen) rest).widen.andThen fun _ rest _ =>
      (block rest).andThen fun body rest _ =>
      (armTail rest).map (.mk binding filters body t :: ·)
    else .keep [] (t :: ts)
termination_by 4 * ts.length

end

end

end MooScript.Grammar

namespace MooScript

/-- A token list as the grammar reads it: without comments, and cut where the input ends. -/
def Grammar.input (tokens : List Token) : List Token × Token :=
  let ts := tokens.filter (·.kind != .comment)
  (ts.takeWhile (·.kind != .eof),
    (ts.find? (·.kind == .eof)).getD (Token.endOfInput ts.getLast?))

/-- The program that a token list makes, as one block. -/
def Stmt.parse (tokens : List Token) : Except SyntaxError Stmt := do
  let (ts, finish) := Grammar.input tokens
  let ⟨program, rest, _⟩ ← Grammar.block finish ts
  if rest.isEmpty then return program else Grammar.fail finish .statement rest

/-- The expression that a whole token list makes. -/
def Expr.parse (tokens : List Token) : Except SyntaxError Expr := do
  let (ts, finish) := Grammar.input tokens
  let ⟨e, rest, _⟩ ← Grammar.expr finish ts
  if rest.isEmpty then return e else Grammar.fail finish .endOfExpression rest

end MooScript
