import MiniLang.Syntax.Ast
import MiniLang.Bytecode.Program
import Mathlib.Logic.Function.Basic

/-!
# Well-formed programs

The static rules of the language as a declarative judgement: typing rules for expressions under
the names visible there, statements that extend the visible names, and the conditions on a whole
program. Nothing here mentions scopes as data, errors, or an order of checking.
-/

namespace MiniLang

/-- What a visible name stands for. -/
inductive Entity
  | scalar (type : Ty)
  | array (type : Ty)
  | function (params : List Ty)
deriving DecidableEq

/-- The names visible at a program point. -/
abbrev Names := String → Option Entity

def Names.declare (Γ : Names) (name : String) (entity : Entity) : Names :=
  Function.update Γ name (some entity)

/-- The entity a variable declaration introduces. -/
def varEntity (type : Ty) (arraySize : Option Int32) : Entity :=
  if arraySize.isSome then .array type else .scalar type

/-! ## Expressions -/

inductive BinaryTyped : BinaryOp → Ty → Ty → Ty → Prop
  | arithmetic {op : BinaryOp} (h : op ∈ [.add, .sub, .mul, .div]) : BinaryTyped op .int .int .int
  | ordering {op : BinaryOp} (h : op ∈ [.lt, .gt, .le, .ge]) : BinaryTyped op .int .int .bool
  | equality {op : BinaryOp} (h : op ∈ [.eq, .ne]) (t : Ty) : BinaryTyped op t t .bool
  | logical {op : BinaryOp} (h : op ∈ [.and, .or]) {t u : Ty} (ht : t.IsScalar)
      (hu : u.IsScalar) : BinaryTyped op t u .bool

inductive UnaryTyped : UnaryOp → Ty → Ty → Prop
  | neg : UnaryTyped .neg .int .int
  | not {t : Ty} (ht : t.IsScalar) : UnaryTyped .not t .bool

mutual

/-- `HasType Γ e t`: where the names `Γ` are visible, `e` is an expression of type `t`. -/
inductive HasType (Γ : Names) : Expr → Ty → Prop
  | intLiteral (value : Int32) (span : Span) : HasType Γ (.intLiteral value span) .int
  | boolLiteral (value : Bool) (span : Span) : HasType Γ (.boolLiteral value span) .bool
  | identifier {name : String} {t : Ty} (h : Γ name = some (.scalar t)) (span : Span) :
      HasType Γ (.identifier name span) t
  | binary {op : BinaryOp} {left right : Expr} {t u v : Ty} (hl : HasType Γ left t)
      (hr : HasType Γ right u) (h : BinaryTyped op t u v) (span : Span) :
      HasType Γ (.binary op left right span) v
  | unary {op : UnaryOp} {operand : Expr} {t u : Ty} (ht : HasType Γ operand t)
      (h : UnaryTyped op t u) (span : Span) : HasType Γ (.unary op operand span) u
  | call {name : String} {args : List Expr} {params : List Ty}
      (h : Γ name = some (.function params)) (hargs : HaveTypes Γ args params) (span : Span) :
      HasType Γ (.call name args span) .int
  | arrayIndex {name : String} {index : Expr} {t : Ty} (h : Γ name = some (.array t))
      (hindex : HasType Γ index .int) (span : Span) : HasType Γ (.arrayIndex name index span) t

/-- The arguments of a call have the declared types, one for one. -/
inductive HaveTypes (Γ : Names) : List Expr → List Ty → Prop
  | nil : HaveTypes Γ [] []
  | cons {arg : Expr} {args : List Expr} {t : Ty} {ts : List Ty} (h : HasType Γ arg t)
      (hargs : HaveTypes Γ args ts) : HaveTypes Γ (arg :: args) (t :: ts)

end

def IsCondition (Γ : Names) (e : Expr) : Prop := ∃ t, t.IsScalar ∧ HasType Γ e t

def InitOk (Γ : Names) (type : Ty) (init : Option Expr) : Prop := ∀ e ∈ init, HasType Γ e type

/-! ## Statements -/

mutual

/-- `StmtOk Γ s Γ'`: the statement `s` is well-formed where `Γ` is visible, and `Γ'` is visible
after it. A block restores the names visible before it. -/
inductive StmtOk : Names → Stmt → Names → Prop
  | varDecl {Γ : Names} {type : Ty} {name : String} {init : Option Expr} {size : Option Int32}
      (hfresh : Γ name = none) (hsize : ∀ n ∈ size, 0 < n)
      (hinit : InitOk (Γ.declare name (varEntity type size)) type init) (span : Span) :
      StmtOk Γ (.varDecl type name init size span) (Γ.declare name (varEntity type size))
  | assignScalar {Γ : Names} {target : String} {value : Expr} {t : Ty}
      (h : Γ target = some (.scalar t)) (hv : HasType Γ value t) (span : Span) :
      StmtOk Γ (.assign target none value span) Γ
  | assignElement {Γ : Names} {target : String} {index value : Expr} {t : Ty}
      (h : Γ target = some (.array t)) (hi : HasType Γ index .int) (hv : HasType Γ value t)
      (span : Span) : StmtOk Γ (.assign target (some index) value span) Γ
  | ifThen {Γ Γ₁ : Names} {condition : Expr} {thenBody : List Stmt} (h : IsCondition Γ condition)
      (hthen : StmtsOk Γ thenBody Γ₁) (span : Span) :
      StmtOk Γ (.ifStmt condition thenBody none span) Γ
  | ifElse {Γ Γ₁ Γ₂ : Names} {condition : Expr} {thenBody elseBody : List Stmt}
      (h : IsCondition Γ condition) (hthen : StmtsOk Γ thenBody Γ₁)
      (helse : StmtsOk Γ elseBody Γ₂) (span : Span) :
      StmtOk Γ (.ifStmt condition thenBody (some elseBody) span) Γ
  | whileStmt {Γ Γ₁ : Names} {condition : Expr} {body : List Stmt} (h : IsCondition Γ condition)
      (hbody : StmtsOk Γ body Γ₁) (span : Span) : StmtOk Γ (.whileStmt condition body span) Γ
  | returnStmt {Γ : Names} {value : Expr} (h : HasType Γ value .int) (span : Span) :
      StmtOk Γ (.returnStmt value span) Γ
  | print {Γ : Names} {value : Expr} {t : Ty} (h : HasType Γ value t) (span : Span) :
      StmtOk Γ (.print value span) Γ
  | exprStmt {Γ : Names} {expr : Expr} {t : Ty} (h : HasType Γ expr t) (span : Span) :
      StmtOk Γ (.exprStmt expr span) Γ

inductive StmtsOk : Names → List Stmt → Names → Prop
  | nil (Γ : Names) : StmtsOk Γ [] Γ
  | cons {Γ Γ₁ Γ₂ : Names} {stmt : Stmt} {stmts : List Stmt} (h : StmtOk Γ stmt Γ₁)
      (hs : StmtsOk Γ₁ stmts Γ₂) : StmtsOk Γ (stmt :: stmts) Γ₂

end

mutual

/-- The names declared anywhere in a statement, in source order. -/
def Stmt.localNames : Stmt → List String
  | .varDecl _ name _ _ _ => [name]
  | .ifStmt _ thenBody none _ => localNamesList thenBody
  | .ifStmt _ thenBody (some elseBody) _ => localNamesList thenBody ++ localNamesList elseBody
  | .whileStmt _ body _ => localNamesList body
  | .assign .. => []
  | .returnStmt .. => []
  | .print .. => []
  | .exprStmt .. => []
termination_by structural stmt => stmt

def localNamesList : List Stmt → List String
  | [] => []
  | stmt :: stmts => stmt.localNames ++ localNamesList stmts
termination_by structural stmts => stmts

end

/-! ## Programs -/

/-- Every parameter is new where it is declared. -/
inductive ParamsOk : Names → List Param → Names → Prop
  | nil (Γ : Names) : ParamsOk Γ [] Γ
  | cons {Γ Γ₁ : Names} {param : Param} {params : List Param} (hfresh : Γ param.name = none)
      (hs : ParamsOk (Γ.declare param.name (.scalar param.paramType)) params Γ₁) :
      ParamsOk Γ (param :: params) Γ₁

/-- Parameters and distinct local names. -/
def Function.localSlots (f : Function) : Nat :=
  f.params.length + (localNamesList f.body).dedup.length

structure FunctionOk (Γ : Names) (f : Function) : Prop where
  body : ∃ Γ₁ Γ₂, ParamsOk Γ f.params Γ₁ ∧ StmtsOk Γ₁ f.body Γ₂
  slots : f.localSlots ≤ maxLocalSlots

def GlobalVar.slots (g : GlobalVar) : Nat :=
  match g.arraySize with
  | some size => asUsize size
  | none => 1

/-- The names visible throughout the program. -/
def Program.topLevel (p : Program) : Names := fun name ↦
  (p.globals.find? (·.name = name)).map (fun g ↦ varEntity g.varType g.arraySize) <|>
    (p.functions.find? (·.name = name)).map fun f ↦ .function (f.params.map Param.paramType)

structure Program.WellFormed (p : Program) : Prop where
  distinct : (p.globals.map GlobalVar.name ++ p.functions.map Function.name).Nodup
  main : ∃ f ∈ p.functions, f.name = "main" ∧ f.params = []
  sizes : ∀ g ∈ p.globals, ∀ size ∈ g.arraySize, 0 < size
  globalSlots : (p.globals.map GlobalVar.slots).sum ≤ maxGlobalSlots
  inits : ∀ g ∈ p.globals, InitOk p.topLevel g.varType g.initExpr
  functions : ∀ f ∈ p.functions, FunctionOk p.topLevel f

end MiniLang
