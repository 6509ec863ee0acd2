import MooScript.Proofs.Walk
import MooScript.Syntax.Grammar.Statement

/-! A parser that moves a cursor over all of its tokens. It has a method for each rule of the
grammar, and tells of each token that it looks up and of each turn of its loops. -/
namespace MooScript.Parser

open Grammar (Level)

/-- The tokens that a parser holds: no comments, and an end of the input behind the others. -/
def held (tokens : List Token) : List Token :=
  let ts := tokens.filter (·.kind != .comment)
  ts ++ [Token.endOfInput ts.getLast?]

inductive Loop
  | statements | semicolons | branches | arms | filters | operators | properties | verbs
  | elements | arguments
  deriving DecidableEq

/-- What the parser tells of. -/
inductive Act
  | look
  | turn (loop : Loop) (number : Nat)

/-- What becomes of an integer that does not fit its word: it wraps around, or it is checked for and
stops the parser. -/
inductive Arithmetic
  | wrapping
  | checked

/-- A walk of the cursor. -/
abbrev Moves (α : Type) := Walk SyntaxError Nat Act α

/-- The rules that have a method, each with what it makes. -/
inductive Nonterminal : Type → Type
  | block : Nonterminal Stmt
  | stmt : Nonterminal Stmt
  | return_ : Nonterminal Stmt
  | if_ : Nonterminal Stmt
  | for_ : Nonterminal Stmt
  | try_ : Nonterminal Stmt
  | condition : Nonterminal Expr
  | filters : Nonterminal (List Expr)
  | expr : Nonterminal Expr
  | level (l : Level) : Nonterminal Expr
  | property : Nonterminal Expr
  | unary : Nonterminal Expr
  | primary : Nonterminal Expr
  | atom : Nonterminal Expr
  | call (callee : Expr) (token : Token) : Nonterminal Expr
  | arguments : Nonterminal (List Expr)
  | range : Nonterminal Expr
  | recover : Nonterminal Expr

variable {α β : Type}

/-- A loop: a turn goes on with `again`, or else the loop is left. -/
def loop (turn : Nat → α → (α → Moves β) → Moves β) : (steps number : Nat) → α → Moves β
  | 0, _, _ => Walk.halt .outOfSteps
  | steps + 1, number, a => turn number a (loop turn steps (number + 1))

section

variable (arithmetic : Arithmetic) (tokens : List Token)

/-! ### The cursor -/

/-- Looks up the token at the cursor. -/
def current : Moves Token := do
  Walk.note .look
  let p ← Walk.state
  match tokens[p]? with
  | some t => return t
  | none => Walk.halt .outOfRange

def sees (k : Kind) : Moves Bool := do
  let t ← current tokens
  return t.kind == k

/-- Moves the cursor, but never behind the last token. -/
def proceed : Moves Unit := do
  let p ← Walk.state
  if p + 1 < tokens.length then Walk.move (p + 1) else return ()

def advance : Moves Token := do
  let t ← current tokens
  proceed tokens
  return t

def eat (k : Kind) : Moves Bool := do
  let seen ← sees tokens k
  if seen then do
    let _ ← advance tokens
    return true
  else return false

/-- Refuses the token at the cursor. -/
def refuse (expected : Expectation) : Moves α := do
  let t ← current tokens
  if t.kind = .eof then Walk.refuse (.unexpectedEnd expected t)
  else Walk.refuse (.unexpectedToken expected t)

def expect (k : Kind) : Moves Token := do
  let seen ← sees tokens k
  if seen then advance tokens else refuse tokens (.kind k)

def expectEnd (expected : Expectation) : Moves Unit := do
  let ended ← sees tokens .eof
  if ended then return () else refuse tokens expected

def seesBlockEnd : Moves Bool := do
  let t ← current tokens
  return t.kind == .eof || Grammar.endsBlock t.kind

/-! ### Expressions -/

variable (call : (α : Type) → Nonterminal α → Moves α) (steps : Nat)

def assignment : Moves Expr := do
  let left ← call _ (.level .disjunction)
  let seen ← sees tokens (.symbol .equal)
  if seen then
    if left.name?.isSome then do
      let token ← advance tokens
      let right ← call _ .expr
      return .binary .assign left right token
    else Walk.refuse (.invalidAssignment left.token)
  else return left

def operand (l : Level) : Moves Expr :=
  match l.tighter? with
  | some next => call _ (.level next)
  | none => call _ .property

def operatorTurn (l : Level) (number : Nat) (left : Expr) (again : Expr → Moves Expr) :
    Moves Expr := do
  let t ← current tokens
  match l.operator? t.kind with
  | none => return left
  | some op => do
    Walk.note (.turn .operators number)
    let token ← advance tokens
    let right ← operand call l
    again (.binary op left right token)

def chain (l : Level) : Moves Expr := do
  let left ← operand call l
  loop (operatorTurn tokens call l) steps 1 left

def propertyTurn (number : Nat) (object : Expr) (again : Expr → Moves Expr) : Moves Expr := do
  let seen ← sees tokens (.symbol .dot)
  if seen then do
    Walk.note (.turn .properties number)
    let token ← advance tokens
    let name ← expect tokens .identifier
    again (.property object name.text token)
  else return object

def property : Moves Expr := do
  let object ← call _ .unary
  loop (propertyTurn tokens) steps 1 object

def unary : Moves Expr := do
  let t ← current tokens
  match Grammar.unaryOperator? t.kind with
  | none => call _ .primary
  | some op => do
    let token ← advance tokens
    let e ← call _ .unary
    return .unary op e token

def verbTurn (number : Nat) (object : Expr) (again : Expr → Moves Expr) : Moves Expr := do
  let seen ← sees tokens (.symbol .colon)
  if seen then do
    Walk.note (.turn .verbs number)
    let token ← advance tokens
    let verb ← expect tokens .identifier
    let args ← call _ .arguments
    again (.verbCall object verb.text args token)
  else return object

def primary : Moves Expr := do
  let object ← call _ .atom
  loop (verbTurn tokens call) steps 1 object

/-- A turn of the loops over expressions up to a closing symbol, which is taken at their end. -/
def elementTurn (closing : Symbol) (which : Loop) (number : Nat) (elements : List Expr)
    (again : List Expr → Moves (List Expr)) : Moves (List Expr) := do
  let closed ← sees tokens (.symbol closing)
  if closed then do
    let _ ← expect tokens (.symbol closing)
    return elements
  else do
    Walk.note (.turn which number)
    let e ← call _ .expr
    let closed ← sees tokens (.symbol closing)
    if closed then again (elements ++ [e])
    else do
      let _ ← expect tokens (.symbol .comma)
      again (elements ++ [e])

def arguments : Moves (List Expr) := do
  let _ ← expect tokens (.symbol .leftParen)
  loop (elementTurn tokens call .rightParen .arguments) steps 1 []

def callOf (callee : Expr) (token : Token) : Moves Expr := do
  let args ← call _ .arguments
  return .call callee args token

/-- A call, if arguments follow its callee. -/
def calling (callee : Expr) (token : Token) : Moves Expr := do
  let seen ← sees tokens (.symbol .leftParen)
  if seen then call _ (.call callee token) else return callee

def system (name : String) (token : Token) : Moves Expr := do
  let seen ← sees tokens (.symbol .leftParen)
  if seen then do
    let args ← call _ .arguments
    return .verbCall (.literal (.object 0) token) name args token
  else return .property (.literal (.object 0) token) name token

/-- Of all integers only the negation of the least one does not fit. -/
def negation (n : Int64) : Moves Int64 :=
  match arithmetic with
  | .wrapping => return -n
  | .checked => if n = Int64.minValue then Walk.halt .overflow else return -n

def objectId (negative : Bool) : Moves ObjectId := do
  let number ← expect tokens .integer
  match Decimal.readInt64? number.text with
  | none => Walk.refuse (.unexpectedToken .objectNumber number)
  | some n => do
    let n ← if negative then negation arithmetic n else pure n
    match Word.int32? n.toInt with
    | some id => return id
    | none => Walk.refuse (.unexpectedToken .objectNumber number)

def objectNumber : Moves ObjectId := do
  let negative ← eat tokens (.symbol .minus)
  objectId arithmetic tokens negative

def literal : Moves Expr := do
  let token ← advance tokens
  match Syntax.literalValue? token with
  | some value => return .literal value token
  | none => Walk.refuse (.unexpectedToken (.kind token.kind) token)

def atom : Moves Expr := do
  let t ← current tokens
  match t.kind with
  | .identifier => do
    let token ← advance tokens
    calling tokens call (.identifier token.text token) token
  | .symbol .leftParen => do
    let token ← advance tokens
    let inner ← call _ .expr
    let _ ← expect tokens (.symbol .rightParen)
    calling tokens call (.grouping inner token) token
  | .symbol .dollar => do
    let token ← advance tokens
    let name ← expect tokens .identifier
    system tokens call name.text token
  | .symbol .leftBrace => do
    let token ← advance tokens
    let elements ← loop (elementTurn tokens call .rightBrace .elements) steps 1 []
    return .list elements token
  | .symbol .leftBracket => call _ .range
  | .symbol .backtick => call _ .recover
  | .symbol .hash => do
    let token ← advance tokens
    let id ← objectNumber arithmetic tokens
    return .literal (.object id) token
  | .integer | .float | .string => literal tokens
  | .keyword .true_ => do
    let token ← advance tokens
    return .literal (.boolean true) token
  | .keyword .false_ => do
    let token ← advance tokens
    return .literal (.boolean false) token
  | _ => refuse tokens .expression

def range : Moves Expr := do
  let token ← expect tokens (.symbol .leftBracket)
  let first ← call _ .expr
  let _ ← expect tokens (.symbol .dotDot)
  let last ← call _ .expr
  let _ ← expect tokens (.symbol .rightBracket)
  return .range first last token

def recover : Moves Expr := do
  let token ← expect tokens (.symbol .backtick)
  let body ← call _ .expr
  let _ ← expect tokens (.symbol .bang)
  let filters ← call _ .filters
  let _ ← expect tokens (.symbol .fatArrow)
  let alternative ← call _ .expr
  let _ ← expect tokens (.symbol .quote)
  return .recover body filters alternative token

def filterTurn (number : Nat) (filters : List Expr) (again : List Expr → Moves (List Expr)) :
    Moves (List Expr) := do
  let eaten ← eat tokens (.symbol .comma)
  if eaten then do
    Walk.note (.turn .filters number)
    let e ← call _ .expr
    again (filters ++ [e])
  else return filters

def filters : Moves (List Expr) := do
  let eaten ← eat tokens (.keyword .any)
  if eaten then return []
  else do
    let e ← call _ .expr
    loop (filterTurn tokens call) steps 1 [e]

/-! ### Statements -/

def condition : Moves Expr := do
  let _ ← expect tokens (.symbol .leftParen)
  let e ← call _ .expr
  let _ ← expect tokens (.symbol .rightParen)
  return e

def semicolonTurn (number : Nat) (_ : Unit) (again : Unit → Moves Unit) : Moves Unit := do
  let eaten ← eat tokens (.symbol .semicolon)
  if eaten then do
    Walk.note (.turn .semicolons number)
    again ()
  else return ()

/-- This loop is left from inside of a turn. -/
def statementTurn (number : Nat) (body : List Stmt) (again : List Stmt → Moves (List Stmt)) :
    Moves (List Stmt) := do
  Walk.note (.turn .statements number)
  loop (semicolonTurn tokens) steps 1 ()
  let ended ← seesBlockEnd tokens
  if ended then return body
  else do
    let s ← call _ .stmt
    again (body ++ [s])

def block : Moves Stmt := do
  let start ← current tokens
  let body ← loop (statementTurn tokens call steps) steps 1 []
  return .block (Grammar.orZero start body)

def exprStmt : Moves Stmt := do
  let e ← call _ .expr
  let _ ← eat tokens (.symbol .semicolon)
  return .expr e

def stmt : Moves Stmt := do
  let t ← current tokens
  match t.kind with
  | .keyword .return_ => call _ .return_
  | .keyword .if_ => call _ .if_
  | .keyword .for_ => call _ .for_
  | .keyword .try_ => call _ .try_
  | _ => exprStmt tokens call

/-- What a return statement returns. -/
def returned (token : Token) : Moves Expr := do
  let semicolon ← sees tokens (.symbol .semicolon)
  if semicolon then return Grammar.zero token
  else do
    let ended ← seesBlockEnd tokens
    if ended then return Grammar.zero token else call _ .expr

def return_ : Moves Stmt := do
  let token ← expect tokens (.keyword .return_)
  let e ← returned tokens call token
  let _ ← eat tokens (.symbol .semicolon)
  return .return_ e token

def branchTurn (number : Nat) (branches : List (Expr × Stmt))
    (again : List (Expr × Stmt) → Moves (List (Expr × Stmt))) :
    Moves (List (Expr × Stmt)) := do
  let eaten ← eat tokens (.keyword .elseIf)
  if eaten then do
    Walk.note (.turn .branches number)
    let c ← call _ .condition
    let body ← call _ .block
    again (branches ++ [(c, body)])
  else return branches

def otherwise : Moves (Option Stmt) := do
  let eaten ← eat tokens (.keyword .else_)
  if eaten then do
    let body ← call _ .block
    return some body
  else return none

def if_ : Moves Stmt := do
  let token ← expect tokens (.keyword .if_)
  let c ← call _ .condition
  let body ← call _ .block
  let branches ← loop (branchTurn tokens call) steps 1 []
  let last ← otherwise tokens call
  let _ ← expect tokens (.keyword .endIf)
  return .if_ (c :: branches.map Prod.fst) (body :: branches.map Prod.snd) last token

def iterable : Moves Expr := do
  let t ← current tokens
  if t.kind = .symbol .leftBracket then call _ .range
  else if t.kind = .symbol .leftParen then call _ .condition
  else refuse tokens .iterable

def for_ : Moves Stmt := do
  let token ← expect tokens (.keyword .for_)
  let var ← expect tokens .identifier
  let _ ← expect tokens (.keyword .in_)
  let items ← iterable tokens call
  let body ← call _ .block
  let _ ← expect tokens (.keyword .endFor)
  return .for_ var.text items body token

def binding : Moves (Option String) := do
  let seen ← sees tokens .identifier
  if seen then do
    let name ← advance tokens
    return some name.text
  else return none

def armTurn (number : Nat) (arms : List Arm) (again : List Arm → Moves (List Arm)) :
    Moves (List Arm) := do
  let seen ← sees tokens (.keyword .except)
  if seen then do
    Walk.note (.turn .arms number)
    let token ← advance tokens
    let name ← binding tokens
    let _ ← expect tokens (.symbol .leftParen)
    let filters ← call _ .filters
    let _ ← expect tokens (.symbol .rightParen)
    let body ← call _ .block
    again (arms ++ [.mk name filters body token])
  else return arms

def try_ : Moves Stmt := do
  let token ← expect tokens (.keyword .try_)
  let body ← call _ .block
  let arms ← loop (armTurn tokens call) steps 1 []
  if arms.isEmpty then refuse tokens (.kind (.keyword .except))
  else do
    let _ ← expect tokens (.keyword .endTry)
    return .try_ body arms token

/-- The method of a rule. -/
def method : {α : Type} → Nonterminal α → Moves α
  | _, .block => block tokens call steps
  | _, .stmt => stmt tokens call
  | _, .return_ => return_ tokens call
  | _, .if_ => if_ tokens call steps
  | _, .for_ => for_ tokens call
  | _, .try_ => try_ tokens call steps
  | _, .condition => condition tokens call
  | _, .filters => filters tokens call steps
  | _, .expr => assignment tokens call
  | _, .level l => chain tokens call steps l
  | _, .property => property tokens call steps
  | _, .unary => unary tokens call
  | _, .primary => primary tokens call steps
  | _, .atom => atom arithmetic tokens call steps
  | _, .call callee token => callOf call callee token
  | _, .arguments => arguments tokens call steps
  | _, .range => range tokens call
  | _, .recover => recover tokens call

end

/-- Calls a method. Each call within it, and each turn of a loop, takes one of the steps. -/
def run (arithmetic : Arithmetic) (tokens : List Token) :
    (steps : Nat) → (α : Type) → Nonterminal α → Moves α
  | 0, _, _ => Walk.halt .outOfSteps
  | steps + 1, _, x => method arithmetic tokens (run arithmetic tokens steps) steps x

/-- Parses a program. -/
def program (arithmetic : Arithmetic) (tokens : List Token) (steps : Nat) : Moves Stmt := do
  let body ← run arithmetic (held tokens) steps _ .block
  expectEnd (held tokens) .statement
  return body

/-- Parses an expression that is the whole of the tokens. -/
def expression (arithmetic : Arithmetic) (tokens : List Token) (steps : Nat) : Moves Expr := do
  let e ← run arithmetic (held tokens) steps _ .expr
  expectEnd (held tokens) .endOfExpression
  return e

end MooScript.Parser
