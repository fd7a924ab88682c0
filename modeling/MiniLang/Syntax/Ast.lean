import MiniLang.Syntax.Token

/-!
# Abstract syntax

Expressions, statements and programs as the parser builds them. Integer literals and array sizes
are `i32` in the source, hence `Int32` here.
-/

namespace MiniLang

/-- Type enumeration for the MiniLang type system. -/
inductive Ty
  | int
  | bool
  | void
  | error
deriving DecidableEq

inductive BinaryOp
  | add | sub | mul | div
  | eq | ne | lt | gt | le | ge
  | and | or
deriving DecidableEq

inductive UnaryOp
  | neg
  | not
deriving DecidableEq

/-- Expression nodes. -/
inductive Expr
  | intLiteral (value : Int32) (span : Span)
  | boolLiteral (value : Bool) (span : Span)
  | identifier (name : String) (span : Span)
  | binary (op : BinaryOp) (left right : Expr) (span : Span)
  | unary (op : UnaryOp) (operand : Expr) (span : Span)
  | call (name : String) (args : List Expr) (span : Span)
  | arrayIndex (arrayName : String) (index : Expr) (span : Span)

def Expr.span : Expr → Span
  | .intLiteral _ span => span
  | .boolLiteral _ span => span
  | .identifier _ span => span
  | .binary _ _ _ span => span
  | .unary _ _ span => span
  | .call _ _ span => span
  | .arrayIndex _ _ span => span

/-- Statement nodes. -/
inductive Stmt
  | varDecl (varType : Ty) (name : String) (initExpr : Option Expr) (arraySize : Option Int32)
      (span : Span)
  | assign (target : String) (indexExpr : Option Expr) (value : Expr) (span : Span)
  | ifStmt (condition : Expr) (thenBody : List Stmt) (elseBody : Option (List Stmt)) (span : Span)
  | whileStmt (condition : Expr) (body : List Stmt) (span : Span)
  | returnStmt (value : Expr) (span : Span)
  | print (value : Expr) (span : Span)
  | exprStmt (expr : Expr) (span : Span)

structure Param where
  paramType : Ty
  name : String
  span : Span

structure Function where
  name : String
  params : List Param
  body : List Stmt
  span : Span

structure GlobalVar where
  varType : Ty
  name : String
  initExpr : Option Expr
  arraySize : Option Int32
  span : Span

/-- Program (root AST node). -/
structure Program where
  globals : List GlobalVar
  functions : List Function

/-! ## Trees of the source syntax

The source syntax can only declare `int` and `bool` (`void` and `error` are internal), and it has
no array initializers.
-/

/-- `int` and `bool`, the types of the source syntax. -/
def Ty.IsScalar (t : Ty) : Prop := t = .int ∨ t = .bool

/-- A variable declaration that the source syntax can express. -/
structure DeclForm (t : Ty) (init : Option Expr) (size : Option Int32) : Prop where
  scalar : t.IsScalar
  plain : size.isSome → init = none

mutual

/-- Every variable declaration in the statement is one of the source syntax. -/
def Stmt.SourceForm : Stmt → Prop
  | .varDecl varType _ init size _ => DeclForm varType init size
  | .ifStmt _ thenBody none _ => sourceFormList thenBody
  | .ifStmt _ thenBody (some elseBody) _ => sourceFormList thenBody ∧ sourceFormList elseBody
  | .whileStmt _ body _ => sourceFormList body
  | .assign .. => True
  | .returnStmt .. => True
  | .print .. => True
  | .exprStmt .. => True
termination_by structural stmt => stmt

def sourceFormList : List Stmt → Prop
  | [] => True
  | stmt :: stmts => stmt.SourceForm ∧ sourceFormList stmts
termination_by structural stmts => stmts

end

structure Program.SourceForm (p : Program) : Prop where
  globals : ∀ g ∈ p.globals, DeclForm g.varType g.initExpr g.arraySize
  params : ∀ f ∈ p.functions, ∀ param ∈ f.params, param.paramType.IsScalar
  bodies : ∀ f ∈ p.functions, sourceFormList f.body

end MiniLang
