import MooScript.Proofs.Syntax.Conformance

/-! The words of a tree, in the order of its source. -/
namespace MooScript

/-- What a tree tells of a token: its kind, and its text where a node has it. -/
structure Word where
  kind : Kind
  text? : Option String

namespace Word

def symbol (s : Symbol) : Word := ⟨.symbol s, none⟩

def keyword (k : Keyword) : Word := ⟨.keyword k, none⟩

def name (text : String) : Word := ⟨.identifier, some text⟩

/-- The word of the token that a node keeps. -/
def own (kind : Kind) (t : Token) : Word := ⟨kind, some t.text⟩

/-- The number behind a hash. -/
def ofObjectId (id : ObjectId) : List Word :=
  if id.toInt < 0 then [symbol .minus, ⟨.integer, some (toString id.toInt.natAbs)⟩]
  else [⟨.integer, some (toString id.toInt.natAbs)⟩]

end Word

mutual

def Expr.words : Expr → List Word
  | .binary op left right t => left.words ++ .own (.symbol op.symbol) t :: right.words
  | .unary op operand t => .own (.symbol op.symbol) t :: operand.words
  | .grouping inner t =>
    .own (.symbol .leftParen) t :: (inner.words ++ [.symbol .rightParen])
  | .literal (.object id) t => .own (.symbol .hash) t :: Word.ofObjectId id
  | .literal _ t => [.own t.kind t]
  | .identifier name _ => [.name name]
  | .list elements t =>
    .own (.symbol .leftBrace) t :: (Expr.wordsAll elements ++ [.symbol .rightBrace])
  | .range first last t =>
    .own (.symbol .leftBracket) t ::
      (first.words ++ .symbol .dotDot :: (last.words ++ [.symbol .rightBracket]))
  | .property object name t =>
    if object.isSystem then [.own (.symbol .dollar) t, .name name]
    else object.words ++ [.own (.symbol .dot) t, .name name]
  | .call callee args _ =>
    callee.words ++ .symbol .leftParen :: (Expr.wordsAll args ++ [.symbol .rightParen])
  | .verbCall object verb args t =>
    let called := .name verb :: .symbol .leftParen :: (Expr.wordsAll args ++ [.symbol .rightParen])
    if object.isSystem then .own (.symbol .dollar) t :: called
    else object.words ++ .own (.symbol .colon) t :: called
  | .recover body filters alternative t =>
    .own (.symbol .backtick) t :: (body.words ++ .symbol .bang :: (Expr.filterWords filters ++
      .symbol .fatArrow :: (alternative.words ++ [.symbol .quote])))

/-- Expressions with commas between them. -/
def Expr.wordsAll : List Expr → List Word
  | [] => []
  | e :: es => e.words ++ Expr.wordsMore es

/-- Expressions, each behind a comma. -/
def Expr.wordsMore : List Expr → List Word
  | [] => []
  | e :: es => .symbol .comma :: (e.words ++ Expr.wordsMore es)

/-- The errors that are caught. -/
def Expr.filterWords : List Expr → List Word
  | [] => [.keyword .any]
  | e :: es => e.words ++ Expr.wordsMore es

end

/-- Arguments in their parentheses. -/
def Expr.argumentWords (args : List Expr) : List Word :=
  .symbol .leftParen :: (Expr.wordsAll args ++ [.symbol .rightParen])

/-- An expression in parentheses. -/
def Expr.conditionWords (e : Expr) : List Word :=
  .symbol .leftParen :: (e.words ++ [.symbol .rightParen])

/-- A range stands by itself in front of a loop's body. -/
def Expr.iterableWords : Expr → List Word
  | range first last t => (range first last t).words
  | e => e.conditionWords

mutual

/-- An absent value is no statement; any other ends in a semicolon. -/
def Stmt.words : Stmt → List Word
  | .expr e => if e.isAbsent then [] else e.words ++ [.symbol .semicolon]
  | .block body => Stmt.wordsAll body
  | .return_ e t =>
    .own (.keyword .return_) t :: ((if e.isAbsent then [] else e.words) ++ [.symbol .semicolon])
  | .if_ conditions consequences otherwise t =>
    Stmt.wordsOfBranches (.own (.keyword .if_) t) conditions consequences ++
      (Stmt.wordsOfElse otherwise ++ [.keyword .endIf])
  | .for_ var iterable body t =>
    .own (.keyword .for_) t :: .name var :: .keyword .in_ ::
      (iterable.iterableWords ++ (body.words ++ [.keyword .endFor]))
  | .try_ body arms t =>
    .own (.keyword .try_) t :: (body.words ++ (Arm.wordsAll arms ++ [.keyword .endTry]))

def Stmt.wordsAll : List Stmt → List Word
  | [] => []
  | s :: ss => s.words ++ Stmt.wordsAll ss

/-- Conditions with what each guards, the first behind `opening` and each other behind `elseif`. -/
def Stmt.wordsOfBranches (opening : Word) : List Expr → List Stmt → List Word
  | condition :: conditions, body :: bodies =>
    opening :: (condition.conditionWords ++
      (body.words ++ Stmt.wordsOfBranches (.keyword .elseIf) conditions bodies))
  | _, _ => []

def Stmt.wordsOfElse : Option Stmt → List Word
  | none => []
  | some body => .keyword .else_ :: body.words

def Arm.wordsAll : List Arm → List Word
  | [] => []
  | .mk binding filters body t :: arms =>
    .own (.keyword .except) t :: (binding.toList.map .name ++ .symbol .leftParen ::
      (Expr.filterWords filters ++ .symbol .rightParen :: (body.words ++ Arm.wordsAll arms)))

end

end MooScript
