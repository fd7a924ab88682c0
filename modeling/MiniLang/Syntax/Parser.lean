import MiniLang.Syntax.Ast

/-!
# Recursive descent parser

A parser is the list of the tokens it has not consumed yet. Where the source falls back on the last
token for a position past the end of its vector, the model stops with `overrun`, so that "never
reads past `Eof`" is a statement about results.

The functions for one precedence level take `expr`, the parser for a nested `parse_expr`, as an
argument; `parseExpr` ties the knot. Loops and nesting are bounded by fuel.

## Levels

The binary levels of the source differ in the operators they accept and in the level of their
operands. `parseBinaryLevel` is that loop once, and `parseOr` down to `parseMultiplicative` are its
instances. A level reads one operand, and then operators with further operands for as long as it
finds them, so that a chain nests to the left.

## Fuel

One unit of fuel is enough for each token: nesting costs at least one, and each pass of a loop
consumes one. `parse` starts with more fuel than there are tokens, so that `outOfFuel` is no result
of it, as `Syntax.ParserExact` shows.
-/

namespace MiniLang

inductive ParseFailure
  /-- `ParseError::Error`. -/
  | error (message : String) (span : Span)
  /-- A token past the end of the token vector was asked for. -/
  | overrun
  | outOfFuel
deriving DecidableEq

/-! ## Debug rendering of tokens, for one error message -/

/-- `char::escape_debug` inside a string, for the characters a byte can stand for. -/
def escapeDebug (c : Char) : String :=
  if c = '"' then "\\\""
  else if c = '\\' then "\\\\"
  else if c = '\n' then "\\n"
  else if c = '\r' then "\\r"
  else if c = '\t' then "\\t"
  else if c.toNat = 0 then "\\0"
  else if c.toNat < 0x20 ∨ (0x7f ≤ c.toNat ∧ c.toNat ≤ 0xa0) ∨ c.toNat = 0xad then
    "\\u\x7b" ++ String.ofList (Nat.toDigits 16 c.toNat) ++ "\x7d"
  else c.toString

def debugString (s : String) : String :=
  "\"" ++ String.join (s.toList.map escapeDebug) ++ "\""

/-- The derived `Debug` text of a token kind. -/
def TokenKind.debug : TokenKind → String
  | .intLiteral value => s!"IntLiteral({value.toInt})"
  | .boolLiteral value => s!"BoolLiteral({value})"
  | .identifier name => s!"Identifier({debugString name})"
  | .kwInt => "Int"
  | .kwBool => "Bool"
  | .kwIf => "If"
  | .kwElse => "Else"
  | .kwWhile => "While"
  | .kwFunc => "Func"
  | .kwReturn => "Return"
  | .kwPrint => "Print"
  | .plus => "Plus"
  | .minus => "Minus"
  | .star => "Star"
  | .slash => "Slash"
  | .eq => "Eq"
  | .ne => "Ne"
  | .lt => "Lt"
  | .gt => "Gt"
  | .le => "Le"
  | .ge => "Ge"
  | .and => "And"
  | .or => "Or"
  | .not => "Not"
  | .assign => "Assign"
  | .lParen => "LParen"
  | .rParen => "RParen"
  | .lBrace => "LBrace"
  | .rBrace => "RBrace"
  | .lBracket => "LBracket"
  | .rBracket => "RBracket"
  | .semicolon => "Semicolon"
  | .comma => "Comma"
  | .eof => "Eof"
  | .error message => s!"Error({debugString message})"

namespace Parser

abbrev ParserM := EStateM ParseFailure (List Token)

/-! ## Token access -/

def current : ParserM Token := do
  match ← get with
  | [] => throw .overrun
  | token :: _ => return token

def advance : ParserM Unit := do
  match ← get with
  | [] => throw .overrun
  | token :: rest => if token.kind = .eof then return () else set rest

/-- `discriminant(current) == discriminant(kind)`. -/
def check (kind : TokenKind) : ParserM Bool := do
  return (← current).kind.ctorIdx == kind.ctorIdx

def error {α : Type} (message : String) : ParserM α := do
  throw (.error message (← current).span)

def matchToken (kind : TokenKind) : ParserM Bool := do
  if ← check kind then
    modify List.tail
    return true
  else return false

def expect (kind : TokenKind) (message : String) : ParserM Unit := do
  if ← check kind then modify List.tail else error message

def identifier (message : String) : ParserM String := do
  match (← current).kind with
  | .identifier name => do
    advance
    return name
  | _ => error message

/-! ## Expressions -/

/-- The loop shared by the six levels of binary operators: as long as the current token is one of
the level's operators, parse another operand and nest to the left. -/
def parseBinaryLoop (operator : TokenKind → Option BinaryOp) (operand : ParserM Expr) :
    Nat → Expr → ParserM Expr
  | 0, _ => throw .outOfFuel
  | fuel + 1, left => do
    match operator (← current).kind with
    | none => return left
    | some op => do
      modify List.tail
      let right ← operand
      parseBinaryLoop operator operand fuel (.binary op left right left.span)

def parseBinaryLevel (operator : TokenKind → Option BinaryOp) (operand : ParserM Expr)
    (fuel : Nat) : ParserM Expr := do
  let left ← operand
  parseBinaryLoop operator operand fuel left

def orOperator : TokenKind → Option BinaryOp
  | .or => some .or
  | _ => none

def andOperator : TokenKind → Option BinaryOp
  | .and => some .and
  | _ => none

def equalityOperator : TokenKind → Option BinaryOp
  | .eq => some .eq
  | .ne => some .ne
  | _ => none

def comparisonOperator : TokenKind → Option BinaryOp
  | .lt => some .lt
  | .gt => some .gt
  | .le => some .le
  | .ge => some .ge
  | _ => none

def additiveOperator : TokenKind → Option BinaryOp
  | .plus => some .add
  | .minus => some .sub
  | _ => none

def multiplicativeOperator : TokenKind → Option BinaryOp
  | .star => some .mul
  | .slash => some .div
  | _ => none

/-- The loop of `parse_args` after the first argument. -/
def parseArgsLoop (expr : ParserM Expr) : Nat → ParserM (List Expr)
  | 0 => throw .outOfFuel
  | fuel + 1 => do
    if ← matchToken .comma then
      let arg ← expr
      let args ← parseArgsLoop expr fuel
      return arg :: args
    else return []

def parseArgs (expr : ParserM Expr) (fuel : Nat) : ParserM (List Expr) := do
  if (← current).kind = .rParen then return []
  else
    let arg ← expr
    let args ← parseArgsLoop expr fuel
    return arg :: args

def parsePrimary (expr : ParserM Expr) (fuel : Nat) : ParserM Expr := do
  let token ← current
  let span := token.span
  match token.kind with
  | .intLiteral value => do
    advance
    return .intLiteral value span
  | .boolLiteral value => do
    advance
    return .boolLiteral value span
  | .identifier name => do
    advance
    if ← matchToken .lParen then
      let args ← parseArgs expr fuel
      expect .rParen "Expected ')'"
      return .call name args span
    else if ← matchToken .lBracket then
      let index ← expr
      expect .rBracket "Expected ']'"
      return .arrayIndex name index span
    else return .identifier name span
  | kind => do
    if ← matchToken .lParen then
      let inner ← expr
      expect .rParen "Expected ')'"
      return inner
    else error s!"Unexpected token: {kind.debug}"

def parseUnary (expr : ParserM Expr) : Nat → ParserM Expr
  | 0 => throw .outOfFuel
  | fuel + 1 => do
    let span := (← current).span
    if ← matchToken .minus then
      let operand ← parseUnary expr fuel
      return .unary .neg operand span
    else if ← matchToken .not then
      let operand ← parseUnary expr fuel
      return .unary .not operand span
    else parsePrimary expr (fuel + 1)

def parseMultiplicative (expr : ParserM Expr) (fuel : Nat) : ParserM Expr :=
  parseBinaryLevel multiplicativeOperator (parseUnary expr fuel) fuel

def parseAdditive (expr : ParserM Expr) (fuel : Nat) : ParserM Expr :=
  parseBinaryLevel additiveOperator (parseMultiplicative expr fuel) fuel

def parseComparison (expr : ParserM Expr) (fuel : Nat) : ParserM Expr :=
  parseBinaryLevel comparisonOperator (parseAdditive expr fuel) fuel

def parseEquality (expr : ParserM Expr) (fuel : Nat) : ParserM Expr :=
  parseBinaryLevel equalityOperator (parseComparison expr fuel) fuel

def parseAnd (expr : ParserM Expr) (fuel : Nat) : ParserM Expr :=
  parseBinaryLevel andOperator (parseEquality expr fuel) fuel

def parseOr (expr : ParserM Expr) (fuel : Nat) : ParserM Expr :=
  parseBinaryLevel orOperator (parseAnd expr fuel) fuel

def parseExpr : Nat → ParserM Expr
  | 0 => throw .outOfFuel
  | fuel + 1 => parseOr (parseExpr fuel) (fuel + 1)

/-! ## Declarations and statements -/

def parseType : ParserM Ty := do
  match (← current).kind with
  | .kwInt => do
    advance
    return .int
  | .kwBool => do
    advance
    return .bool
  | _ => error "Expected type (int or bool)"

/-- The part after the name that `parse_var_decl` and `parse_global` share: an array size or an
initializer, and the semicolon. -/
def parseDeclarator (fuel : Nat) : ParserM (Option Int32 × Option Expr) := do
  if ← matchToken .lBracket then
    match (← current).kind with
    | .intLiteral size => do
      advance
      expect .rBracket "Expected ']'"
      expect .semicolon "Expected ';'"
      return (some size, none)
    | _ => error "Expected array size"
  else if ← matchToken .assign then
    let init ← parseExpr fuel
    expect .semicolon "Expected ';'"
    return (none, some init)
  else
    expect .semicolon "Expected ';'"
    return (none, none)

def parseVarDecl (fuel : Nat) : ParserM Stmt := do
  let span := (← current).span
  let varType ← parseType
  let name ← identifier "Expected identifier"
  let (arraySize, initExpr) ← parseDeclarator fuel
  return .varDecl varType name initExpr arraySize span

/-- The scan of `is_assignment_start` for the bracket that closes the first one; `none` when it
runs past the last token. -/
def scanAssignment : Nat → List TokenKind → Option Bool
  | _, [] => none
  | depth, .lBracket :: rest => scanAssignment (depth + 1) rest
  | depth, .rBracket :: rest =>
    if depth - 1 = 0 then rest.head?.map fun next ↦ next = .assign
    else scanAssignment (depth - 1) rest
  | _, .eof :: _ => some false
  | depth, _ :: rest => scanAssignment depth rest

/-- The lookahead that tells an assignment from an expression statement, on the kinds of the
tokens ahead. -/
def assignmentAhead : List TokenKind → Option Bool
  | .identifier _ :: rest =>
    match rest.head? with
    | none => none
    | some .assign => some true
    | some .lBracket => scanAssignment 0 rest
    | some _ => some false
  | [] => none
  | _ => some false

def isAssignmentStart : ParserM Bool := do
  match assignmentAhead ((← get).map Token.kind) with
  | some b => return b
  | none => throw .overrun

def parseAssignment (fuel : Nat) : ParserM Stmt := do
  let span := (← current).span
  let name ← identifier "Expected identifier"
  if ← matchToken .lBracket then
    let indexExpr ← parseExpr fuel
    expect .rBracket "Expected ']'"
    expect .assign "Expected '='"
    let value ← parseExpr fuel
    expect .semicolon "Expected ';'"
    return .assign name (some indexExpr) value span
  else if ← matchToken .assign then
    let value ← parseExpr fuel
    expect .semicolon "Expected ';'"
    return .assign name none value span
  else error "Expected assignment"

def parseReturn (fuel : Nat) : ParserM Stmt := do
  let span := (← current).span
  expect .kwReturn "Expected 'return'"
  let value ← parseExpr fuel
  expect .semicolon "Expected ';'"
  return .returnStmt value span

def parsePrint (fuel : Nat) : ParserM Stmt := do
  let span := (← current).span
  expect .kwPrint "Expected 'print'"
  let value ← parseExpr fuel
  expect .semicolon "Expected ';'"
  return .print value span

def parseExprStmt (fuel : Nat) : ParserM Stmt := do
  let span := (← current).span
  let expr ← parseExpr fuel
  expect .semicolon "Expected ';'"
  return .exprStmt expr span

/-- The loop of `parse_block` over the statements. -/
def parseStmts (stmt : ParserM Stmt) : Nat → ParserM (List Stmt)
  | 0 => throw .outOfFuel
  | fuel + 1 => do
    let kind := (← current).kind
    if kind = .rBrace ∨ kind = .eof then return []
    else
      let s ← stmt
      let stmts ← parseStmts stmt fuel
      return s :: stmts

def parseBlock (stmt : ParserM Stmt) (fuel : Nat) : ParserM (List Stmt) := do
  expect .lBrace "Expected '\x7b'"
  let stmts ← parseStmts stmt fuel
  expect .rBrace "Expected '\x7d'"
  return stmts

def parseIf (stmt : ParserM Stmt) (fuel : Nat) : ParserM Stmt := do
  let span := (← current).span
  expect .kwIf "Expected 'if'"
  expect .lParen "Expected '('"
  let condition ← parseExpr fuel
  expect .rParen "Expected ')'"
  let thenBody ← parseBlock stmt fuel
  if ← matchToken .kwElse then
    let elseBody ← parseBlock stmt fuel
    return .ifStmt condition thenBody (some elseBody) span
  else return .ifStmt condition thenBody none span

def parseWhile (stmt : ParserM Stmt) (fuel : Nat) : ParserM Stmt := do
  let span := (← current).span
  expect .kwWhile "Expected 'while'"
  expect .lParen "Expected '('"
  let condition ← parseExpr fuel
  expect .rParen "Expected ')'"
  let body ← parseBlock stmt fuel
  return .whileStmt condition body span

def parseStmt : Nat → ParserM Stmt
  | 0 => throw .outOfFuel
  | fuel + 1 => do
    match (← current).kind with
    | .kwInt => parseVarDecl (fuel + 1)
    | .kwBool => parseVarDecl (fuel + 1)
    | .kwIf => parseIf (parseStmt fuel) (fuel + 1)
    | .kwWhile => parseWhile (parseStmt fuel) (fuel + 1)
    | .kwReturn => parseReturn (fuel + 1)
    | .kwPrint => parsePrint (fuel + 1)
    | .identifier _ => do
      if ← isAssignmentStart then parseAssignment (fuel + 1) else parseExprStmt (fuel + 1)
    | .intLiteral _ => parseExprStmt (fuel + 1)
    | .boolLiteral _ => parseExprStmt (fuel + 1)
    | .lParen => parseExprStmt (fuel + 1)
    | .minus => parseExprStmt (fuel + 1)
    | .not => parseExprStmt (fuel + 1)
    | _ => error "Expected statement"

def parseGlobal (fuel : Nat) : ParserM GlobalVar := do
  let span := (← current).span
  let varType ← parseType
  let name ← identifier "Expected identifier"
  let (arraySize, initExpr) ← parseDeclarator fuel
  return ⟨varType, name, initExpr, arraySize, span⟩

def parseParam : ParserM Param := do
  let span := (← current).span
  let paramType ← parseType
  let name ← identifier "Expected parameter name"
  return ⟨paramType, name, span⟩

/-- The loop of `parse_function` over the parameters after the first. -/
def parseParamsLoop : Nat → ParserM (List Param)
  | 0 => throw .outOfFuel
  | fuel + 1 => do
    if ← matchToken .comma then
      let param ← parseParam
      let params ← parseParamsLoop fuel
      return param :: params
    else return []

def parseParams (fuel : Nat) : ParserM (List Param) := do
  if (← current).kind = .rParen then return []
  else
    let param ← parseParam
    let params ← parseParamsLoop fuel
    return param :: params

def parseFunction (fuel : Nat) : ParserM Function := do
  let span := (← current).span
  expect .kwFunc "Expected 'func'"
  let name ← identifier "Expected function name"
  expect .lParen "Expected '('"
  let params ← parseParams fuel
  expect .rParen "Expected ')'"
  let body ← parseBlock (parseStmt fuel) fuel
  return ⟨name, params, body, span⟩

/-- The loop of `parse` over the top-level declarations; globals and functions are collected in
source order. -/
def parseProgram (inner : Nat) : Nat → ParserM Program
  | 0 => throw .outOfFuel
  | fuel + 1 => do
    match (← current).kind with
    | .eof => return ⟨[], []⟩
    | .kwFunc => do
      let function ← parseFunction inner
      let program ← parseProgram inner fuel
      return { program with functions := function :: program.functions }
    | .kwInt => do
      let global ← parseGlobal inner
      let program ← parseProgram inner fuel
      return { program with globals := global :: program.globals }
    | .kwBool => do
      let global ← parseGlobal inner
      let program ← parseProgram inner fuel
      return { program with globals := global :: program.globals }
    | _ => error "Expected function or global declaration"

/-- `Parser::new(tokens).parse()`. -/
def parse (tokens : List Token) : Except ParseFailure Program :=
  match (parseProgram (tokens.length + 1) (tokens.length + 1)).run tokens with
  | .ok program _ => .ok program
  | .error failure _ => .error failure

end Parser

end MiniLang
