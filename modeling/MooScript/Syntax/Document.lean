import MooScript.Decimal.Shortest
import MooScript.Json
import MooScript.Syntax

/-! Syntax trees as JSON documents: one field named for the node, holding the node's fields. -/
namespace MooScript

def Kind.name : Kind → String
  | comment => "Comment"
  | keyword k => match k with
    | .if_ => "If"
    | .elseIf => "ElseIf"
    | .else_ => "Else"
    | .endIf => "EndIf"
    | .for_ => "For"
    | .in_ => "In"
    | .endFor => "EndFor"
    | .return_ => "Return"
    | .try_ => "Try"
    | .except => "Except"
    | .endTry => "EndTry"
    | .any => "Any"
    | .true_ => "True"
    | .false_ => "False"
  | integer => "Integer"
  | float => "Float"
  | string => "String"
  | identifier => "Identifier"
  | symbol s => match s with
    | .equalEqual => "EqualEqual"
    | .bangEqual => "BangEqual"
    | .lessEqual => "LessEqual"
    | .greaterEqual => "GreaterEqual"
    | .ampAmp => "AmpAmp"
    | .pipePipe => "PipePipe"
    | .dotDot => "DotDot"
    | .fatArrow => "FatArrow"
    | .leftParen => "LeftParen"
    | .rightParen => "RightParen"
    | .leftBrace => "LeftBrace"
    | .rightBrace => "RightBrace"
    | .leftBracket => "LeftBrack"
    | .rightBracket => "RightBrack"
    | .comma => "Comma"
    | .semicolon => "Semicolon"
    | .dot => "Dot"
    | .colon => "Colon"
    | .plus => "Plus"
    | .minus => "Minus"
    | .star => "Star"
    | .slash => "Slash"
    | .percent => "Percent"
    | .equal => "Equal"
    | .less => "Less"
    | .greater => "Greater"
    | .bang => "Bang"
    | .hash => "Hash"
    | .dollar => "Dollar"
    | .caret => "Caret"
    | .backtick => "Backtick"
    | .quote => "Quote"
  | eof => "Eof"

/-- The word for a code in documents. -/
def ErrorCode.word : ErrorCode → String
  | none => "None"
  | type => "Type"
  | div => "Div"
  | perm => "Perm"
  | propNotFound => "PropNf"
  | verbNotFound => "VerbNf"
  | varNotFound => "VarNf"
  | invalidIndirection => "InvInd"
  | recursiveMove => "RecMove"
  | maxRecursion => "MaxRec"
  | range => "Range"
  | args => "Args"
  | notAccepted => "NAcc"
  | invalidArgument => "InvArg"
  | quota => "Quota"
  | float => "Float"

/-- Positional with a decimal from `10 ^ -5` up to below `10 ^ 16`, scientific beyond; a double
that is no number is null. -/
def Binary64.toJson (x : Float) : Json :=
  if !isFinite x then .null
  else
    let d := Decimal.shortest .toEven x
    let point := (toString d.digits).length + d.exponent
    let sign := if isNegative x then "-" else ""
    if point < -4 || 16 < point then .number (sign ++ d.scientific)
    else .number (sign ++ d.positional ++ if 0 ≤ d.exponent then ".0" else "")

namespace Json

def nat (n : Nat) : Json := number (toString n)

def ofOption : Option Json → Json
  | some j => j
  | none => null

/-- A node of a tree. -/
def node (name : String) (fields : List (String × Json)) : Json := object [(name, object fields)]

end Json

def Token.toJson (t : Token) : Json :=
  .object
    [("kind", .string t.kind.name),
      ("span", .object [("start", .nat t.span.start), ("end", .nat t.span.stop)]),
      ("text", .string t.text),
      ("line", .nat t.position.line),
      ("column", .nat t.position.column)]

mutual

def Value.toJson : Value → Json
  | .boolean b => .object [("Boolean", .bool b)]
  | .integer n => .object [("Integer", .number (toString n.toInt))]
  | .float x => .object [("Float", Binary64.toJson x)]
  | .character c => .object [("Character", .string c.toString)]
  | .string s => .object [("String", .string s)]
  | .object id => .object [("Object", .number (toString id.toInt))]
  | .list items => .object [("List", .array (Value.allToJson items))]
  | .error code => .object [("Error", .string code.word)]
  | .returned value => .object [("Return", value.toJson)]

def Value.allToJson : List Value → List Json
  | [] => []
  | value :: items => value.toJson :: Value.allToJson items

end

section

variable (onValue : Value → Json)

mutual

/-- The document of an expression, with literals written by `onValue`. -/
def Expr.toJson : Expr → Json
  | .binary op left right token =>
    .node "Binary"
      [("left", left.toJson), ("right", right.toJson), ("op", .string op.name),
        ("token", token.toJson)]
  | .unary op operand token =>
    .node "Unary" [("op", .string op.name), ("right", operand.toJson), ("token", token.toJson)]
  | .grouping inner token => .node "Grouping" [("inner", inner.toJson), ("token", token.toJson)]
  | .literal value token => .node "Literal" [("value", onValue value), ("token", token.toJson)]
  | .identifier name token => .node "Identifier" [("name", .string name), ("token", token.toJson)]
  | .list elements token =>
    .node "List" [("elements", .array (Expr.allToJson elements)), ("token", token.toJson)]
  | .range first last token =>
    .node "Range" [("from", first.toJson), ("to", last.toJson), ("token", token.toJson)]
  | .property object name token =>
    .node "Property"
      [("object", object.toJson), ("name", .string name), ("token", token.toJson)]
  | .call callee args token =>
    .node "FunctionCall"
      [("callee", callee.toJson), ("args", .array (Expr.allToJson args)),
        ("token", token.toJson)]
  | .verbCall object verb args token =>
    .node "VerbCall"
      [("object", object.toJson), ("verb", .string verb), ("args", .array (Expr.allToJson args)),
        ("token", token.toJson)]
  | .recover body filters alternative token =>
    .node "Try"
      [("expr", body.toJson), ("error_filters", .array (Expr.allToJson filters)),
        ("alternative", alternative.toJson), ("token", token.toJson)]

def Expr.allToJson : List Expr → List Json
  | [] => []
  | e :: es => e.toJson :: Expr.allToJson es

end

mutual

def Stmt.toJson : Stmt → Json
  | .expr e => .node "ExprStmt" [("expr", e.toJson onValue)]
  | .block body => .node "Block" [("statements", .array (Stmt.allToJson body))]
  | .return_ e token => .node "Return" [("expr", e.toJson onValue), ("token", token.toJson)]
  | .if_ conditions consequences otherwise token =>
    .node "If"
      [("conditions", .array (Expr.allToJson onValue conditions)),
        ("consequences", .array (Stmt.allToJson consequences)),
        ("else_branch", Stmt.optionToJson otherwise), ("token", token.toJson)]
  | .for_ var iterable body token =>
    .node "For"
      [("loop_var", .string var), ("iterable", iterable.toJson onValue), ("body", body.toJson),
        ("token", token.toJson)]
  | .try_ body arms token =>
    .node "Try"
      [("body", body.toJson), ("handler_arms", .array (Arm.allToJson arms)),
        ("token", token.toJson)]

def Stmt.allToJson : List Stmt → List Json
  | [] => []
  | s :: ss => s.toJson :: Stmt.allToJson ss

def Stmt.optionToJson : Option Stmt → Json
  | none => .null
  | some s => s.toJson

def Arm.allToJson : List Arm → List Json
  | [] => []
  | .mk binding filters body token :: arms =>
    .object
      [("binding", .ofOption (binding.map .string)),
        ("errors", .array (Expr.allToJson onValue filters)), ("body", body.toJson),
        ("token", token.toJson)] :: Arm.allToJson arms

end

end

end MooScript
