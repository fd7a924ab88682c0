import MiniLang.Syntax.Ast

/-!
# The grammar

The productions of the language over token kinds, each with the tree it stands for. Trees carry no
positions here: every span is `Span.default`, and `eraseSpans` brings a parsed tree to that form. A
production `x { op x }*` is a first operand followed by a chain of operator-operand pairs that nest
to the left.

## Levels

Expressions have a level for each precedence, from `or` down to the primary ones, and `Derives` has
one constructor for every binary level instead of six copies: an operand of the next level followed
by a `Chain`. Left nesting is in the index of the chain, which is the tree so far. So the grammar
says what a sentence is without an order of search; the parser's order, its lookahead and its fuel
do not occur in it.
-/

namespace MiniLang

namespace Grammar

/-- The levels of the expression grammar, from the loosest to the tightest. -/
inductive Level
  | or | and | equality | comparison | additive | multiplicative | unary | primary
deriving DecidableEq

/-- The level of the operands of a binary operator. -/
def Level.next : Level → Level
  | .or => .and
  | .and => .equality
  | .equality => .comparison
  | .comparison => .additive
  | .additive => .multiplicative
  | .multiplicative => .unary
  | .unary => .primary
  | .primary => .primary

/-- The binary operator that a token stands for, with its level. -/
inductive Operator : Level → TokenKind → BinaryOp → Prop
  | or : Operator .or .or .or
  | and : Operator .and .and .and
  | eq : Operator .equality .eq .eq
  | ne : Operator .equality .ne .ne
  | lt : Operator .comparison .lt .lt
  | gt : Operator .comparison .gt .gt
  | le : Operator .comparison .le .le
  | ge : Operator .comparison .ge .ge
  | add : Operator .additive .plus .add
  | sub : Operator .additive .minus .sub
  | mul : Operator .multiplicative .star .mul
  | div : Operator .multiplicative .slash .div

/-! ## Expressions -/

mutual

/-- `Derives l ts e`: the tokens `ts` are a sentence of level `l`, with the tree `e`. -/
inductive Derives : Level → List TokenKind → Expr → Prop
  | chain {l : Level} {ts us : List TokenKind} {left e : Expr} (hl : l ≠ .unary ∧ l ≠ .primary)
      (h : Derives l.next ts left) (hs : Chain l left us e) : Derives l (ts ++ us) e
  | neg {ts : List TokenKind} {e : Expr} (h : Derives .unary ts e) :
      Derives .unary (.minus :: ts) (.unary .neg e .default)
  | not {ts : List TokenKind} {e : Expr} (h : Derives .unary ts e) :
      Derives .unary (.not :: ts) (.unary .not e .default)
  | primary {ts : List TokenKind} {e : Expr} (h : Derives .primary ts e) : Derives .unary ts e
  | intLiteral (value : Int32) : Derives .primary [.intLiteral value] (.intLiteral value .default)
  | boolLiteral (value : Bool) :
      Derives .primary [.boolLiteral value] (.boolLiteral value .default)
  | identifier (name : String) :
      Derives .primary [.identifier name] (.identifier name .default)
  | arrayIndex (name : String) {ts : List TokenKind} {e : Expr} (h : Derives .or ts e) :
      Derives .primary (.identifier name :: .lBracket :: (ts ++ [.rBracket]))
        (.arrayIndex name e .default)
  | callNone (name : String) :
      Derives .primary [.identifier name, .lParen, .rParen] (.call name [] .default)
  | call (name : String) {ts us : List TokenKind} {e : Expr} {es : List Expr}
      (h : Derives .or ts e) (hs : MoreArgs us es) :
      Derives .primary (.identifier name :: .lParen :: (ts ++ us ++ [.rParen]))
        (.call name (e :: es) .default)
  | parens {ts : List TokenKind} {e : Expr} (h : Derives .or ts e) :
      Derives .primary (.lParen :: (ts ++ [.rParen])) e

/-- `Chain l left us e`: the pairs `{ op x }*` in `us` continue the operand `left` to `e`. -/
inductive Chain : Level → Expr → List TokenKind → Expr → Prop
  | nil (l : Level) (e : Expr) : Chain l e [] e
  | cons {l : Level} {kind : TokenKind} {op : BinaryOp} {ts us : List TokenKind}
      {left right e : Expr} (hop : Operator l kind op) (h : Derives l.next ts right)
      (hs : Chain l (.binary op left right .default) us e) :
      Chain l left (kind :: (ts ++ us)) e

/-- The arguments `{ "," expr }*` after the first. -/
inductive MoreArgs : List TokenKind → List Expr → Prop
  | nil : MoreArgs [] []
  | cons {ts us : List TokenKind} {e : Expr} {es : List Expr} (h : Derives .or ts e)
      (hs : MoreArgs us es) : MoreArgs (.comma :: (ts ++ us)) (e :: es)

end

/-! ## Declarations and statements -/

inductive TypeToken : TokenKind → Ty → Prop
  | int : TypeToken .kwInt .int
  | bool : TypeToken .kwBool .bool

/-- `( "[" INTEGER "]" | [ "=" expr ] ) ";"`, the end of a declaration. -/
inductive Declarator : List TokenKind → Option Int32 → Option Expr → Prop
  | array (size : Int32) :
      Declarator [.lBracket, .intLiteral size, .rBracket, .semicolon] (some size) none
  | init {ts : List TokenKind} {e : Expr} (h : Derives .or ts e) :
      Declarator (.assign :: (ts ++ [.semicolon])) none (some e)
  | plain : Declarator [.semicolon] none none

mutual

inductive StmtDerives : List TokenKind → Stmt → Prop
  | varDecl {kind : TokenKind} {t : Ty} (ht : TypeToken kind t) (name : String)
      {ts : List TokenKind} {size : Option Int32} {init : Option Expr}
      (h : Declarator ts size init) :
      StmtDerives (kind :: .identifier name :: ts) (.varDecl t name init size .default)
  | assign (name : String) {ts : List TokenKind} {e : Expr} (h : Derives .or ts e) :
      StmtDerives (.identifier name :: .assign :: (ts ++ [.semicolon]))
        (.assign name none e .default)
  | assignElement (name : String) {ts us : List TokenKind} {index e : Expr}
      (hi : Derives .or ts index) (h : Derives .or us e) :
      StmtDerives (.identifier name :: .lBracket :: (ts ++ .rBracket :: .assign :: (us ++ [.semicolon])))
        (.assign name (some index) e .default)
  | ifThen {ts us : List TokenKind} {e : Expr} {body : List Stmt} (h : Derives .or ts e)
      (hb : BlockDerives us body) :
      StmtDerives (.kwIf :: .lParen :: (ts ++ .rParen :: us)) (.ifStmt e body none .default)
  | ifElse {ts us vs : List TokenKind} {e : Expr} {body elseBody : List Stmt}
      (h : Derives .or ts e) (hb : BlockDerives us body) (he : BlockDerives vs elseBody) :
      StmtDerives (.kwIf :: .lParen :: (ts ++ .rParen :: (us ++ .kwElse :: vs)))
        (.ifStmt e body (some elseBody) .default)
  | whileStmt {ts us : List TokenKind} {e : Expr} {body : List Stmt} (h : Derives .or ts e)
      (hb : BlockDerives us body) :
      StmtDerives (.kwWhile :: .lParen :: (ts ++ .rParen :: us)) (.whileStmt e body .default)
  | returnStmt {ts : List TokenKind} {e : Expr} (h : Derives .or ts e) :
      StmtDerives (.kwReturn :: (ts ++ [.semicolon])) (.returnStmt e .default)
  | print {ts : List TokenKind} {e : Expr} (h : Derives .or ts e) :
      StmtDerives (.kwPrint :: (ts ++ [.semicolon])) (.print e .default)
  | exprStmt {ts : List TokenKind} {e : Expr} (h : Derives .or ts e) :
      StmtDerives (ts ++ [.semicolon]) (.exprStmt e .default)

/-- `"{" { statement }* "}"`. -/
inductive BlockDerives : List TokenKind → List Stmt → Prop
  | block {ts : List TokenKind} {body : List Stmt} (h : StmtsDerive ts body) :
      BlockDerives (.lBrace :: (ts ++ [.rBrace])) body

inductive StmtsDerive : List TokenKind → List Stmt → Prop
  | nil : StmtsDerive [] []
  | cons {ts us : List TokenKind} {s : Stmt} {ss : List Stmt} (h : StmtDerives ts s)
      (hs : StmtsDerive us ss) : StmtsDerive (ts ++ us) (s :: ss)

end

/-! ## Programs -/

inductive ParamDerives : List TokenKind → Param → Prop
  | param {kind : TokenKind} {t : Ty} (ht : TypeToken kind t) (name : String) :
      ParamDerives [kind, .identifier name] ⟨t, name, .default⟩

/-- The parameters `{ "," param }*` after the first. -/
inductive MoreParams : List TokenKind → List Param → Prop
  | nil : MoreParams [] []
  | cons {ts us : List TokenKind} {p : Param} {ps : List Param} (h : ParamDerives ts p)
      (hs : MoreParams us ps) : MoreParams (.comma :: (ts ++ us)) (p :: ps)

/-- `[ params ]`. -/
inductive ParamsDerive : List TokenKind → List Param → Prop
  | none : ParamsDerive [] []
  | params {ts us : List TokenKind} {p : Param} {ps : List Param} (h : ParamDerives ts p)
      (hs : MoreParams us ps) : ParamsDerive (ts ++ us) (p :: ps)

inductive FunctionDerives : List TokenKind → Function → Prop
  | function (name : String) {ts us : List TokenKind} {params : List Param} {body : List Stmt}
      (hp : ParamsDerive ts params) (hb : BlockDerives us body) :
      FunctionDerives (.kwFunc :: .identifier name :: .lParen :: (ts ++ .rParen :: us))
        ⟨name, params, body, .default⟩

inductive GlobalDerives : List TokenKind → GlobalVar → Prop
  | globalDecl {kind : TokenKind} {t : Ty} (ht : TypeToken kind t) (name : String)
      {ts : List TokenKind} {size : Option Int32} {init : Option Expr}
      (h : Declarator ts size init) :
      GlobalDerives (kind :: .identifier name :: ts) ⟨t, name, init, size, .default⟩

/-- `{ global_decl | function }*`. -/
inductive ProgramDerives : List TokenKind → Program → Prop
  | nil : ProgramDerives [] ⟨[], []⟩
  | globalDecl {ts us : List TokenKind} {g : GlobalVar} {p : Program} (h : GlobalDerives ts g)
      (hs : ProgramDerives us p) :
      ProgramDerives (ts ++ us) { p with globals := g :: p.globals }
  | function {ts us : List TokenKind} {f : Function} {p : Program} (h : FunctionDerives ts f)
      (hs : ProgramDerives us p) :
      ProgramDerives (ts ++ us) { p with functions := f :: p.functions }

end Grammar

/-! ## Trees without positions -/

mutual

def Expr.eraseSpans : Expr → Expr
  | .intLiteral value _ => .intLiteral value .default
  | .boolLiteral value _ => .boolLiteral value .default
  | .identifier name _ => .identifier name .default
  | .binary op left right _ => .binary op left.eraseSpans right.eraseSpans .default
  | .unary op operand _ => .unary op operand.eraseSpans .default
  | .call name args _ => .call name (eraseSpansList args) .default
  | .arrayIndex name index _ => .arrayIndex name index.eraseSpans .default
termination_by structural e => e

def eraseSpansList : List Expr → List Expr
  | [] => []
  | e :: es => e.eraseSpans :: eraseSpansList es
termination_by structural es => es

end

mutual

def Stmt.eraseSpans : Stmt → Stmt
  | .varDecl t name init size _ => .varDecl t name (init.map Expr.eraseSpans) size .default
  | .assign target index value _ =>
    .assign target (index.map Expr.eraseSpans) value.eraseSpans .default
  | .ifStmt condition thenBody none _ =>
    .ifStmt condition.eraseSpans (eraseSpansStmts thenBody) none .default
  | .ifStmt condition thenBody (some elseBody) _ =>
    .ifStmt condition.eraseSpans (eraseSpansStmts thenBody) (some (eraseSpansStmts elseBody))
      .default
  | .whileStmt condition body _ =>
    .whileStmt condition.eraseSpans (eraseSpansStmts body) .default
  | .returnStmt value _ => .returnStmt value.eraseSpans .default
  | .print value _ => .print value.eraseSpans .default
  | .exprStmt e _ => .exprStmt e.eraseSpans .default
termination_by structural s => s

def eraseSpansStmts : List Stmt → List Stmt
  | [] => []
  | s :: ss => s.eraseSpans :: eraseSpansStmts ss
termination_by structural ss => ss

end

def Param.eraseSpans (p : Param) : Param := { p with span := .default }

def GlobalVar.eraseSpans (g : GlobalVar) : GlobalVar :=
  { g with initExpr := g.initExpr.map Expr.eraseSpans, span := .default }

def Function.eraseSpans (f : Function) : Function :=
  ⟨f.name, f.params.map Param.eraseSpans, eraseSpansStmts f.body, .default⟩

def Program.eraseSpans (p : Program) : Program :=
  ⟨p.globals.map GlobalVar.eraseSpans, p.functions.map Function.eraseSpans⟩

/-! A tree without positions has one shape only. -/

theorem exists_whileStmt {stmt : Stmt} {condition : Expr} {body : List Stmt} {span : Span}
    (h : stmt.eraseSpans = .whileStmt condition body span) : ∃ condition' body' span',
      stmt = .whileStmt condition' body' span' ∧ condition'.eraseSpans = condition ∧
        eraseSpansStmts body' = body := by
  cases stmt with
  | whileStmt condition' body' span' =>
    obtain ⟨hcondition, hbody, -⟩ := Stmt.whileStmt.inj h
    exact ⟨condition', body', span', rfl, hcondition, hbody⟩
  | ifStmt _ _ elseBody _ => cases elseBody <;> cases h
  | _ => cases h

theorem exists_returnStmt {stmt : Stmt} {value : Expr} {span : Span}
    (h : stmt.eraseSpans = .returnStmt value span) :
    ∃ value' span', stmt = .returnStmt value' span' ∧ value'.eraseSpans = value := by
  cases stmt with
  | returnStmt value' span' => exact ⟨value', span', rfl, (Stmt.returnStmt.inj h).1⟩
  | ifStmt _ _ elseBody _ => cases elseBody <;> cases h
  | _ => cases h

theorem exists_exprStmt {stmt : Stmt} {expr : Expr} {span : Span}
    (h : stmt.eraseSpans = .exprStmt expr span) :
    ∃ expr' span', stmt = .exprStmt expr' span' ∧ expr'.eraseSpans = expr := by
  cases stmt with
  | exprStmt expr' span' => exact ⟨expr', span', rfl, (Stmt.exprStmt.inj h).1⟩
  | ifStmt _ _ elseBody _ => cases elseBody <;> cases h
  | _ => cases h

theorem exists_intLiteral {e : Expr} {value : Int32} {span : Span}
    (h : e.eraseSpans = .intLiteral value span) : ∃ span', e = .intLiteral value span' := by
  cases e with
  | intLiteral value' span' =>
    obtain ⟨rfl, -⟩ := Expr.intLiteral.inj h
    exact ⟨span', rfl⟩
  | _ => cases h

theorem exists_boolLiteral {e : Expr} {value : Bool} {span : Span}
    (h : e.eraseSpans = .boolLiteral value span) : ∃ span', e = .boolLiteral value span' := by
  cases e with
  | boolLiteral value' span' =>
    obtain ⟨rfl, -⟩ := Expr.boolLiteral.inj h
    exact ⟨span', rfl⟩
  | _ => cases h

end MiniLang
