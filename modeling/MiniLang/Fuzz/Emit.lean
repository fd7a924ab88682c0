import MiniLang.Syntax.Ast

/-!
# Program printer

The fuzzer turns a tree back into source text before it shrinks or transforms it. Every operator
application is printed in parentheses, one statement to a line.
-/

namespace MiniLang

namespace Fuzz

/-- `void` and `error` never occur in a declaration; they are printed like `int`. -/
def typeName : Ty → String
  | .int => "int"
  | .bool => "bool"
  | .void | .error => "int"

def binaryOpSymbol : BinaryOp → String
  | .add => "+"
  | .sub => "-"
  | .mul => "*"
  | .div => "/"
  | .eq => "=="
  | .ne => "!="
  | .lt => "<"
  | .gt => ">"
  | .le => "<="
  | .ge => ">="
  | .and => "&&"
  | .or => "||"

def unaryOpSymbol : UnaryOp → String
  | .neg => "-"
  | .not => "!"

mutual

def emitExpr : Expr → String
  | .intLiteral value _ => toString value.toInt
  | .boolLiteral value _ => toString value
  | .identifier name _ => name
  | .binary op left right _ =>
    "(" ++ emitExpr left ++ " " ++ binaryOpSymbol op ++ " " ++ emitExpr right ++ ")"
  | .unary op operand _ => "(" ++ unaryOpSymbol op ++ emitExpr operand ++ ")"
  | .call name args _ => name ++ "(" ++ ", ".intercalate (emitExprs args) ++ ")"
  | .arrayIndex arrayName index _ => arrayName ++ "[" ++ emitExpr index ++ "]"
termination_by structural e => e

/-- `args.iter().map(emit_expr)`. -/
def emitExprs : List Expr → List String
  | [] => []
  | e :: es => emitExpr e :: emitExprs es
termination_by structural es => es

end

/-- `push_indent`. -/
def emitIndent : Nat → String
  | 0 => ""
  | indent + 1 => "  " ++ emitIndent indent

/-- The end of a declaration, from the name on; an array has no initializer. -/
def emitDeclarator (name : String) (initExpr : Option Expr) (arraySize : Option Int32) : String :=
  name ++
    (match arraySize, initExpr with
    | some size, _ => "[" ++ toString size.toInt ++ "]"
    | none, some initExpr => " = " ++ emitExpr initExpr
    | none, none => "") ++ ";\n"

mutual

def emitStmt (indent : Nat) : Stmt → String
  | .varDecl varType name initExpr arraySize _ =>
    emitIndent indent ++ typeName varType ++ " " ++ emitDeclarator name initExpr arraySize
  | .assign target indexExpr value _ =>
    emitIndent indent ++ target ++
      (match indexExpr with
      | some indexExpr => "[" ++ emitExpr indexExpr ++ "]"
      | none => "") ++ " = " ++ emitExpr value ++ ";\n"
  | .ifStmt condition thenBody elseBody _ =>
    emitIndent indent ++ "if (" ++ emitExpr condition ++ ") \x7b\n" ++
      emitStmts (indent + 1) thenBody ++ emitIndent indent ++ "\x7d" ++
      (match elseBody with
      | some elseBody =>
        " else \x7b\n" ++ emitStmts (indent + 1) elseBody ++ emitIndent indent ++ "\x7d"
      | none => "") ++ "\n"
  | .whileStmt condition body _ =>
    emitIndent indent ++ "while (" ++ emitExpr condition ++ ") \x7b\n" ++
      emitStmts (indent + 1) body ++ emitIndent indent ++ "\x7d\n"
  | .returnStmt value _ => emitIndent indent ++ "return " ++ emitExpr value ++ ";\n"
  | .print value _ => emitIndent indent ++ "print " ++ emitExpr value ++ ";\n"
  | .exprStmt expr _ => emitIndent indent ++ emitExpr expr ++ ";\n"
termination_by structural stmt => stmt

def emitStmts (indent : Nat) : List Stmt → String
  | [] => ""
  | stmt :: stmts => emitStmt indent stmt ++ emitStmts indent stmts
termination_by structural stmts => stmts

end

def emitParam (param : Param) : String := typeName param.paramType ++ " " ++ param.name

def emitFunction (function : Function) : String :=
  "func " ++ function.name ++ "(" ++ ", ".intercalate (function.params.map emitParam) ++
    ") \x7b\n" ++ emitStmts 1 function.body ++ "\x7d\n"

def emitGlobal (global : GlobalVar) : String :=
  typeName global.varType ++ " " ++ emitDeclarator global.name global.initExpr global.arraySize

/-- Print a program: its globals, then its functions with an empty line between them. -/
def emitProgram (program : Program) : String :=
  String.join (program.globals.map emitGlobal) ++
    (if program.globals ≠ [] ∧ program.functions ≠ [] then "\n" else "") ++
    "\n".intercalate (program.functions.map emitFunction)

end Fuzz

end MiniLang
