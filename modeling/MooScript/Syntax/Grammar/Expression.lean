import MooScript.Parsed
import MooScript.Syntax
import MooScript.Syntax.Literal

/-! The grammar: each rule reads a result off the front of a token list.

The list holds neither comments nor an end of input; `finish` is the token that ends the input. -/
namespace MooScript.Grammar

/-- What a rule makes of a token list of which it takes at least one. -/
abbrev Rule (α : Type) (ts : List Token) := Reading SyntaxError Token α ts.length

/-- What a rule makes of a token list of which it may take none. -/
abbrev Tail (α : Type) (ts : List Token) := Reading SyntaxError Token α (ts.length + 1)

/-- Levels of binary operators, the loosest first. -/
inductive Level
  | disjunction | conjunction | comparison | additive | multiplicative

namespace Level

def tighter? : Level → Option Level
  | disjunction => some conjunction
  | conjunction => some comparison
  | comparison => some additive
  | additive => some multiplicative
  | multiplicative => none

def operator? : Level → Kind → Option BinaryOp
  | disjunction, .symbol .pipePipe => some .or
  | disjunction, .symbol .caret => some .xor
  | conjunction, .symbol .ampAmp => some .and
  | comparison, .symbol .less => some .lt
  | comparison, .symbol .lessEqual => some .le
  | comparison, .symbol .greater => some .gt
  | comparison, .symbol .greaterEqual => some .ge
  | comparison, .symbol .equalEqual => some .eq
  | comparison, .symbol .bangEqual => some .ne
  | additive, .symbol .plus => some .add
  | additive, .symbol .minus => some .sub
  | multiplicative, .symbol .star => some .mul
  | multiplicative, .symbol .slash => some .div
  | multiplicative, .symbol .percent => some .rem
  | _, _ => none

/-- Orders the levels for termination: the tighter a level, the less. -/
def rank : Level → Nat
  | multiplicative => 0
  | additive => 1
  | comparison => 2
  | conjunction => 3
  | disjunction => 4

theorem rank_tighter {level next : Level} (h : level.tighter? = some next) :
    next.rank + 1 = level.rank := by
  cases level <;> cases h <;> rfl

end Level

def unaryOperator? : Kind → Option UnaryOp
  | .symbol .minus => some .neg
  | .symbol .bang => some .not
  | _ => none

section

variable (finish : Token)

/-- The error of a list that does not go on as expected. -/
def unmet (expected : Expectation) : List Token → SyntaxError
  | [] => .unexpectedEnd expected finish
  | t :: _ => .unexpectedToken expected t

def fail {α : Type} (expected : Expectation) (ts : List Token) : Except SyntaxError α :=
  .error (unmet finish expected ts)

/-- Whether the list goes on with a token of the kind. -/
def startsWith (k : Kind) : List Token → Bool
  | [] => false
  | t :: _ => t.kind == k

/-- Takes a token of the kind. -/
def expect (k : Kind) (ts : List Token) : Rule Token ts :=
  match ts with
  | [] => fail finish (.kind k) []
  | t :: ts => if t.kind = k then .keep t ts else fail finish (.kind k) (t :: ts)

/-- Takes a token of the kind, if there is one. -/
def skip (k : Kind) (ts : List Token) : Tail Unit ts :=
  match ts with
  | [] => .keep () []
  | t :: ts => if t.kind = k then .widen (.keep () ts) else .keep () (t :: ts)

/-- The number of an object. -/
def objectId (negative : Bool) (ts : List Token) : Rule ObjectId ts :=
  (expect finish .integer ts).andThen fun number rest _ =>
    match Syntax.objectId? negative number with
    | some id => .keep id rest
    | none => .error (.unexpectedToken .objectNumber number)

/-- What follows a hash: an object number, which may have a minus sign. -/
def objectNumber (ts : List Token) : Rule ObjectId ts :=
  match ts with
  | [] => objectId finish false []
  | t :: ts =>
    if t.kind = .symbol .minus then .widen (objectId finish true ts)
    else objectId finish false (t :: ts)

mutual

def expr (ts : List Token) : Rule Expr ts :=
  (chain .disjunction ts).andThen fun left rest _ => assignmentTail left rest
termination_by 32 * ts.length + 16
decreasing_by
  · simp [Level.rank]
  · omega

/-- An assignment takes everything to its right; its left side is a name. -/
def assignmentTail (left : Expr) (ts : List Token) : Tail Expr ts :=
  match ts with
  | [] => .keep left []
  | t :: ts =>
    if t.kind = .symbol .equal then
      if left.name?.isSome then
        .widen <| (expr ts).widen.map fun right => .binary .assign left right t
      else .error (.invalidAssignment left.token)
    else .keep left (t :: ts)
termination_by 32 * ts.length

/-- Operands of a level with its operators between them, grouped to the left. -/
def chain (level : Level) (ts : List Token) : Rule Expr ts :=
  (operand level ts).andThen fun left rest _ => chainTail level left rest
termination_by 32 * ts.length + 2 * level.rank + 7

def chainTail (level : Level) (left : Expr) (ts : List Token) : Tail Expr ts :=
  match ts with
  | [] => .keep left []
  | t :: ts => match level.operator? t.kind with
    | none => .keep left (t :: ts)
    | some op =>
      .widen <| (operand level ts).widen.andThen fun right rest _ =>
        chainTail level (.binary op left right t) rest
termination_by 32 * ts.length
decreasing_by all_goals cases level <;> simp [Level.rank] <;> omega

def operand (level : Level) (ts : List Token) : Rule Expr ts :=
  match _h : level.tighter? with
  | some next => chain next ts
  | none => property ts
termination_by 32 * ts.length + 2 * level.rank + 6
decreasing_by
  · have := Level.rank_tighter _h
    omega
  · omega

def property (ts : List Token) : Rule Expr ts :=
  (unary ts).andThen fun object rest _ => propertyTail object rest
termination_by 32 * ts.length + 5

def propertyTail (object : Expr) (ts : List Token) : Tail Expr ts :=
  match ts with
  | [] => .keep object []
  | t :: ts =>
    if t.kind = .symbol .dot then
      .widen <| (expect finish .identifier ts).widen.andThen fun name rest _ =>
        propertyTail (.property object name.text t) rest
    else .keep object (t :: ts)
termination_by 32 * ts.length

def unary (ts : List Token) : Rule Expr ts :=
  match ts with
  | [] => primary []
  | t :: ts => match unaryOperator? t.kind with
    | none => primary (t :: ts)
    | some op => (unary ts).widen.map fun e => .unary op e t
termination_by 32 * ts.length + 4

def primary (ts : List Token) : Rule Expr ts :=
  (atom ts).andThen fun object rest _ => verbTail object rest
termination_by 32 * ts.length + 3

def verbTail (object : Expr) (ts : List Token) : Tail Expr ts :=
  match ts with
  | [] => .keep object []
  | t :: ts =>
    if t.kind = .symbol .colon then
      .widen <| (expect finish .identifier ts).widen.andThen fun verb rest _ =>
      (arguments rest).widen.andThen fun args rest _ =>
      verbTail (.verbCall object verb.text args t) rest
    else .keep object (t :: ts)
termination_by 32 * ts.length

def atom (ts : List Token) : Rule Expr ts :=
  match ts with
  | [] => fail finish .expression []
  | t :: ts => match t.kind with
    | .identifier => callTail (.identifier t.text t) t ts
    | .symbol .leftParen =>
      (expr ts).widen.andThen fun inner rest _ =>
      (expect finish (.symbol .rightParen) rest).widen.andThen fun _ rest _ =>
      callTail (.grouping inner t) t rest
    | .symbol .dollar =>
      (expect finish .identifier ts).widen.andThen fun name rest _ =>
        systemTail name.text t rest
    | .symbol .leftBrace => (listTail .rightBrace ts).widen.map (.list · t)
    | .symbol .leftBracket =>
      (expr ts).widen.andThen fun first rest _ =>
      (expect finish (.symbol .dotDot) rest).widen.andThen fun _ rest _ =>
      (expr rest).widen.andThen fun last rest _ =>
      (expect finish (.symbol .rightBracket) rest).widen.map fun _ => .range first last t
    | .symbol .backtick =>
      (expr ts).widen.andThen fun body rest _ =>
      (expect finish (.symbol .bang) rest).widen.andThen fun _ rest _ =>
      (errorFilters rest).widen.andThen fun filters rest _ =>
      (expect finish (.symbol .fatArrow) rest).widen.andThen fun _ rest _ =>
      (expr rest).widen.andThen fun alternative rest _ =>
      (expect finish (.symbol .quote) rest).widen.map fun _ =>
        .recover body filters alternative t
    | .symbol .hash => (objectNumber finish ts).widen.map fun id => .literal (.object id) t
    | .integer | .float | .string => match Syntax.literalValue? t with
      | some value => .keep (.literal value t) ts
      | none => .error (.unexpectedToken (.kind t.kind) t)
    | .keyword .true_ => .keep (.literal (.boolean true) t) ts
    | .keyword .false_ => .keep (.literal (.boolean false) t) ts
    | _ => fail finish .expression (t :: ts)
termination_by 32 * ts.length + 2

/-- A property of the system object, or a call of its verb, if arguments follow the name. -/
def systemTail (name : String) (token : Token) (ts : List Token) : Tail Expr ts :=
  if startsWith (.symbol .leftParen) ts then
    (arguments ts).widen.map fun args => .verbCall (.literal (.object 0) token) name args token
  else .keep (.property (.literal (.object 0) token) name token) ts
termination_by 32 * ts.length + 2

/-- A call, if arguments follow its callee. -/
def callTail (callee : Expr) (token : Token) (ts : List Token) : Tail Expr ts :=
  if startsWith (.symbol .leftParen) ts then
    (arguments ts).widen.map fun args => .call callee args token
  else .keep callee ts
termination_by 32 * ts.length + 2

def arguments (ts : List Token) : Rule (List Expr) ts :=
  (expect finish (.symbol .leftParen) ts).andThen fun _ rest _ =>
    (listTail .rightParen rest).widen
termination_by 32 * ts.length + 1

/-- Expressions with commas between them, up to the closing symbol; a comma may stand before it. -/
def listTail (closing : Symbol) (ts : List Token) : Rule (List Expr) ts :=
  match ts with
  | [] => nonemptyList closing []
  | t :: ts =>
    if t.kind = .symbol closing then .keep [] ts else nonemptyList closing (t :: ts)
termination_by 32 * ts.length + 18

def nonemptyList (closing : Symbol) (ts : List Token) : Rule (List Expr) ts :=
  (expr ts).andThen fun e rest _ => (separatedTail closing rest).widen.map (e :: ·)
termination_by 32 * ts.length + 17

def separatedTail (closing : Symbol) (ts : List Token) : Rule (List Expr) ts :=
  match ts with
  | [] => fail finish (.kind (.symbol .comma)) []
  | t :: ts =>
    if t.kind = .symbol closing then .keep [] ts
    else if t.kind = .symbol .comma then (listTail closing ts).widen
    else fail finish (.kind (.symbol .comma)) (t :: ts)
termination_by 32 * ts.length

/-- The word for any error, or expressions with commas between them. -/
def errorFilters (ts : List Token) : Rule (List Expr) ts :=
  match ts with
  | [] => filterList []
  | t :: ts => if t.kind = .keyword .any then .keep [] ts else filterList (t :: ts)
termination_by 32 * ts.length + 18

def filterList (ts : List Token) : Rule (List Expr) ts :=
  (expr ts).andThen fun e rest _ => (filterTail rest).map (e :: ·)
termination_by 32 * ts.length + 17

def filterTail (ts : List Token) : Tail (List Expr) ts :=
  match ts with
  | [] => .keep [] []
  | t :: ts =>
    if t.kind = .symbol .comma then (filterList ts).widen.widen else .keep [] (t :: ts)
termination_by 32 * ts.length

end

end

end MooScript.Grammar
