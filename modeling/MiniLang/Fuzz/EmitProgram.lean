import MiniLang.Fuzz.EmitTokens

/-!
# Printed programs parse back

Statements, functions and programs after the expressions: a printed program has the tokens that the
printer meant, and the parser makes the same tree of them, positions aside.

## The argument

The tokens of a statement follow its tree, and derive it by one production. The texts are those of
the printer with its indentation, which the lexer skips; each line ends in a byte that closes the
word before it, so that the pieces of a program can be put together without looking at their
neighbours. The two halves meet in the exactness of the parser: on the tokens of a sentence it
returns the one tree that the grammar allows, and the grammar allows the printed one.
-/

namespace MiniLang

open Grammar Lexer

namespace Fuzz

variable {s : List UInt8} {kinds : List TokenKind}

/-! ## Tokens -/

def typeToken : Ty → TokenKind
  | .bool => .kwBool
  | .int | .void | .error => .kwInt

def declaratorTokens (initExpr : Option Expr) (arraySize : Option Int32) : List TokenKind :=
  match arraySize, initExpr with
  | some size, _ => [.lBracket, .intLiteral size, .rBracket, .semicolon]
  | none, some initExpr => .assign :: (exprTokens initExpr ++ [.semicolon])
  | none, none => [.semicolon]

mutual

/-- The tokens that a statement is printed as. -/
def stmtTokens : Stmt → List TokenKind
  | .varDecl varType name initExpr arraySize _ =>
    typeToken varType :: .identifier name :: declaratorTokens initExpr arraySize
  | .assign target none value _ =>
    .identifier target :: .assign :: (exprTokens value ++ [.semicolon])
  | .assign target (some index) value _ =>
    .identifier target :: .lBracket ::
      (exprTokens index ++ .rBracket :: .assign :: (exprTokens value ++ [.semicolon]))
  | .ifStmt condition thenBody none _ =>
    .kwIf :: .lParen :: (exprTokens condition ++ .rParen :: .lBrace ::
      (stmtsTokens thenBody ++ [.rBrace]))
  | .ifStmt condition thenBody (some elseBody) _ =>
    .kwIf :: .lParen :: (exprTokens condition ++ .rParen :: (.lBrace ::
      (stmtsTokens thenBody ++ [.rBrace]) ++ .kwElse :: .lBrace ::
        (stmtsTokens elseBody ++ [.rBrace])))
  | .whileStmt condition body _ =>
    .kwWhile :: .lParen :: (exprTokens condition ++ .rParen :: .lBrace ::
      (stmtsTokens body ++ [.rBrace]))
  | .returnStmt value _ => .kwReturn :: (exprTokens value ++ [.semicolon])
  | .print value _ => .kwPrint :: (exprTokens value ++ [.semicolon])
  | .exprStmt expr _ => exprTokens expr ++ [.semicolon]
termination_by structural stmt => stmt

def stmtsTokens : List Stmt → List TokenKind
  | [] => []
  | stmt :: stmts => stmtTokens stmt ++ stmtsTokens stmts
termination_by structural stmts => stmts

end

def paramTokens (param : Param) : List TokenKind :=
  [typeToken param.paramType, .identifier param.name]

def moreParamsTokens : List Param → List TokenKind
  | [] => []
  | param :: params => .comma :: (paramTokens param ++ moreParamsTokens params)

def paramsTokens : List Param → List TokenKind
  | [] => []
  | param :: params => paramTokens param ++ moreParamsTokens params

def functionTokens (function : Function) : List TokenKind :=
  .kwFunc :: .identifier function.name :: .lParen :: (paramsTokens function.params ++ .rParen ::
    .lBrace :: (stmtsTokens function.body ++ [.rBrace]))

def globalTokens (global : GlobalVar) : List TokenKind :=
  typeToken global.varType :: .identifier global.name ::
    declaratorTokens global.initExpr global.arraySize

def programTokens (program : Program) : List TokenKind :=
  program.globals.flatMap globalTokens ++ program.functions.flatMap functionTokens

/-! ## Trees that can be printed -/

structure PrintableDecl (t : Ty) (name : String) (init : Option Expr) (size : Option Int32) :
    Prop where
  form : DeclForm t init size
  name : IsName name
  init : ∀ e ∈ init, PrintableExpr e
  size : ∀ n ∈ size, 0 ≤ n

mutual

def PrintableStmt : Stmt → Prop
  | .varDecl varType name init size _ => PrintableDecl varType name init size
  | .assign target none value _ => IsName target ∧ PrintableExpr value
  | .assign target (some index) value _ =>
    IsName target ∧ PrintableExpr index ∧ PrintableExpr value
  | .ifStmt condition thenBody none _ => PrintableExpr condition ∧ PrintableStmts thenBody
  | .ifStmt condition thenBody (some elseBody) _ =>
    PrintableExpr condition ∧ PrintableStmts thenBody ∧ PrintableStmts elseBody
  | .whileStmt condition body _ => PrintableExpr condition ∧ PrintableStmts body
  | .returnStmt value _ => PrintableExpr value
  | .print value _ => PrintableExpr value
  | .exprStmt expr _ => PrintableExpr expr
termination_by structural stmt => stmt

def PrintableStmts : List Stmt → Prop
  | [] => True
  | stmt :: stmts => PrintableStmt stmt ∧ PrintableStmts stmts
termination_by structural stmts => stmts

end

structure PrintableParam (param : Param) : Prop where
  scalar : param.paramType.IsScalar
  name : IsName param.name

structure PrintableFunction (function : Function) : Prop where
  name : IsName function.name
  params : ∀ param ∈ function.params, PrintableParam param
  body : PrintableStmts function.body

structure PrintableProgram (program : Program) : Prop where
  globals : ∀ g ∈ program.globals, PrintableDecl g.varType g.name g.initExpr g.arraySize
  functions : ∀ f ∈ program.functions, PrintableFunction f

/-! ## Derivations -/

theorem derives_expr (e : Expr) : Derives .or (exprTokens e) e.eraseSpans :=
  derives_of_primary (derives_exprTokens e) .or

theorem typeToken_scalar {t : Ty} (h : t.IsScalar) : TypeToken (typeToken t) t := by
  rcases h with rfl | rfl
  · exact .int
  · exact .bool

theorem declarator_tokens {t : Ty} {init : Option Expr} {size : Option Int32}
    (h : DeclForm t init size) :
    Declarator (declaratorTokens init size) size (init.map Expr.eraseSpans) := by
  cases size with
  | some n =>
    rw [h.plain rfl]
    exact .array n
  | none =>
    cases init with
    | none => exact .plain
    | some e => exact .init (derives_expr e)

mutual

theorem derives_stmtTokens : (stmt : Stmt) → PrintableStmt stmt →
    StmtDerives (stmtTokens stmt) stmt.eraseSpans
  | .varDecl _ name _ _ _, h =>
    .varDecl (typeToken_scalar h.form.scalar) name (declarator_tokens h.form)
  | .assign target none value _, _ => .assign target (derives_expr value)
  | .assign target (some index) value _, _ =>
    .assignElement target (derives_expr index) (derives_expr value)
  | .ifStmt condition thenBody none _, h =>
    .ifThen (derives_expr condition) (.block (derives_stmtsTokens thenBody h.2))
  | .ifStmt condition thenBody (some elseBody) _, h =>
    .ifElse (derives_expr condition) (.block (derives_stmtsTokens thenBody h.2.1))
      (.block (derives_stmtsTokens elseBody h.2.2))
  | .whileStmt condition body _, h =>
    .whileStmt (derives_expr condition) (.block (derives_stmtsTokens body h.2))
  | .returnStmt value _, _ => .returnStmt (derives_expr value)
  | .print value _, _ => .print (derives_expr value)
  | .exprStmt expr _, _ => .exprStmt (derives_expr expr)
termination_by structural stmt => stmt

theorem derives_stmtsTokens : (stmts : List Stmt) → PrintableStmts stmts →
    StmtsDerive (stmtsTokens stmts) (eraseSpansStmts stmts)
  | [], _ => .nil
  | stmt :: stmts, h => .cons (derives_stmtTokens stmt h.1) (derives_stmtsTokens stmts h.2)
termination_by structural stmts => stmts

end

theorem derives_paramTokens {param : Param} (h : PrintableParam param) :
    ParamDerives (paramTokens param) param.eraseSpans :=
  .param (typeToken_scalar h.scalar) param.name

theorem derives_moreParamsTokens {params : List Param} (h : ∀ param ∈ params, PrintableParam param) :
    MoreParams (moreParamsTokens params) (params.map Param.eraseSpans) := by
  induction params with
  | nil => exact .nil
  | cons param params ih =>
    obtain ⟨hparam, hparams⟩ := List.forall_mem_cons.mp h
    exact .cons (derives_paramTokens hparam) (ih hparams)

theorem derives_functionTokens {function : Function} (h : PrintableFunction function) :
    FunctionDerives (functionTokens function) function.eraseSpans := by
  refine .function function.name ?_ (.block (derives_stmtsTokens function.body h.body))
  have hparams := h.params
  generalize function.params = params at hparams
  cases params with
  | nil => exact .none
  | cons param params =>
    obtain ⟨hparam, hparams⟩ := List.forall_mem_cons.mp hparams
    exact .params (derives_paramTokens hparam) (derives_moreParamsTokens hparams)

theorem derives_programTokens {program : Program} (h : PrintableProgram program) :
    ProgramDerives (programTokens program) program.eraseSpans := by
  obtain ⟨globals, functions⟩ := program
  obtain ⟨hglobals, hfunctions⟩ := h
  dsimp only at hglobals hfunctions
  rw [programTokens, Program.eraseSpans]
  dsimp only
  induction globals with
  | nil =>
    induction functions with
    | nil => exact .nil
    | cons function functions ih =>
      obtain ⟨hfunction, hfunctions⟩ := List.forall_mem_cons.mp hfunctions
      exact .function (derives_functionTokens hfunction) (ih hfunctions)
  | cons g globals ih =>
    obtain ⟨hg, hglobals⟩ := List.forall_mem_cons.mp hglobals
    rw [List.flatMap_cons, List.append_assoc]
    exact .globalDecl (.globalDecl (typeToken_scalar hg.form.scalar) g.name
      (declarator_tokens hg.form)) (ih hglobals)

/-! ## Texts -/

theorem lexes_newline (h : Lexes s kinds) : Lexes (utf8Bytes "\n" ++ s) kinds :=
  h.blank (byte '\n') (by decide)

theorem lexes_semicolon (h : Lexes s kinds) : Lexes (utf8Bytes ";\n" ++ s) (.semicolon :: kinds) :=
  lexes_delimiter (c := ';') (by decide) (lexes_newline h)

/-- `{` at the end of a line. -/
theorem lexes_open (h : Lexes s kinds) :
    Lexes (utf8Bytes ") \x7b\n" ++ s) (.rParen :: .lBrace :: kinds) :=
  lexes_rParen (lexes_space (lexes_delimiter (c := '\x7b') (by decide) (lexes_newline h)))

theorem lexes_rBrace (h : Lexes s kinds) : Lexes (utf8Bytes "\x7d" ++ s) (.rBrace :: kinds) :=
  lexes_delimiter (c := '\x7d') (by decide) h

theorem lexes_assign (h : Lexes s kinds) : Lexes (utf8Bytes " = " ++ s) (.assign :: kinds) :=
  lexes_space ((lexes_space h).symbol (byte '=') (by constructor <;> decide)
    (by simp +decide) rfl)

/-- A keyword before a blank. -/
theorem lexes_keyword (name : String) (hname : IsWord name) (h : Lexes s kinds) :
    Lexes (utf8Bytes name ++ (utf8Bytes " " ++ s)) (keywordOrIdentifier name :: kinds) :=
  lexes_word hname (lexes_space h) (closed_cons (by decide) s)

theorem lexes_if (h : Lexes s kinds) : Lexes (utf8Bytes "if (" ++ s) (.kwIf :: .lParen :: kinds) :=
  lexes_keyword "if" (isWord_printed (by decide)) (lexes_lParen h)

theorem lexes_while (h : Lexes s kinds) :
    Lexes (utf8Bytes "while (" ++ s) (.kwWhile :: .lParen :: kinds) :=
  lexes_keyword "while" (isWord_printed (by decide)) (lexes_lParen h)

theorem lexes_else (h : Lexes s kinds) :
    Lexes (utf8Bytes " else \x7b\n" ++ s) (.kwElse :: .lBrace :: kinds) :=
  lexes_space (lexes_keyword "else" (isWord_printed (by decide))
    (lexes_delimiter (c := '\x7b') (by decide) (lexes_newline h)))

theorem lexes_return (h : Lexes s kinds) : Lexes (utf8Bytes "return " ++ s) (.kwReturn :: kinds) :=
  lexes_keyword "return" (isWord_printed (by decide)) h

theorem lexes_print (h : Lexes s kinds) : Lexes (utf8Bytes "print " ++ s) (.kwPrint :: kinds) :=
  lexes_keyword "print" (isWord_printed (by decide)) h

theorem lexes_func (h : Lexes s kinds) : Lexes (utf8Bytes "func " ++ s) (.kwFunc :: kinds) :=
  lexes_keyword "func" (isWord_printed (by decide)) h

theorem lexes_type (t : Ty) (h : Lexes s kinds) :
    Lexes (utf8Bytes (typeName t) ++ (utf8Bytes " " ++ s)) (typeToken t :: kinds) := by
  cases t with
  | bool => exact lexes_keyword "bool" (isWord_printed (by decide)) h
  | int => exact lexes_keyword "int" (isWord_printed (by decide)) h
  | void => exact lexes_keyword "int" (isWord_printed (by decide)) h
  | error => exact lexes_keyword "int" (isWord_printed (by decide)) h

theorem lexes_indent (indent : Nat) (h : Lexes s kinds) :
    Lexes (utf8Bytes (emitIndent indent) ++ s) kinds := by
  induction indent with
  | zero => exact h
  | succ indent ih =>
    rw [emitIndent, utf8Bytes_append, List.append_assoc]
    exact lexes_space (lexes_space ih)

theorem lexes_declarator {t : Ty} {name : String} {init : Option Expr} {size : Option Int32}
    (hdecl : PrintableDecl t name init size) (h : Lexes s kinds) :
    Lexes (utf8Bytes (emitDeclarator name init size) ++ s)
      (.identifier name :: (declaratorTokens init size ++ kinds)) := by
  have hend := lexes_semicolon h
  unfold emitDeclarator
  simp only [utf8Bytes_append, List.append_assoc]
  cases hsize : size with
  | some n =>
    have hn := lexes_number (hdecl.size n hsize) (lexes_rBracket hend) (closed_cons (by decide) _)
    have hall := lexes_name hdecl.name (lexes_lBracket hn) (closed_cons (by decide) _)
    simp only [utf8Bytes_append, List.append_assoc, declaratorTokens, List.cons_append,
      List.nil_append] at hall ⊢
    exact hall
  | none =>
    cases hinit : init with
    | none =>
      exact lexes_name hdecl.name hend (closed_cons (by decide) _)
    | some e =>
      have he := lexes_emitExpr e (hdecl.init e hinit) hend (closed_cons (by decide) _)
      have hall := lexes_name hdecl.name (lexes_assign he) (closed_cons (by decide) _)
      simp only [utf8Bytes_append, List.append_assoc, declaratorTokens, List.cons_append,
        List.nil_append] at hall ⊢
      exact hall

/-- An expression at the end of a statement. -/
theorem lexes_value (e : Expr) (he : PrintableExpr e) (h : Lexes s kinds) :
    Lexes (utf8Bytes (emitExpr e) ++ (utf8Bytes ";\n" ++ s))
      (exprTokens e ++ .semicolon :: kinds) :=
  lexes_emitExpr e he (lexes_semicolon h) (closed_cons (by decide) s)

/-- A condition in parentheses before a block. -/
theorem lexes_condition (e : Expr) (he : PrintableExpr e) (h : Lexes s kinds) :
    Lexes (utf8Bytes (emitExpr e) ++ (utf8Bytes ") \x7b\n" ++ s))
      (exprTokens e ++ .rParen :: .lBrace :: kinds) :=
  lexes_emitExpr e he (lexes_open h) (closed_cons (by decide) _)

mutual

theorem lexes_emitStmt (indent : Nat) : (stmt : Stmt) → PrintableStmt stmt → ∀ {s kinds},
    Lexes s kinds → Lexes (utf8Bytes (emitStmt indent stmt) ++ s) (stmtTokens stmt ++ kinds)
  | .varDecl varType _ _ _ _, hstmt, _, _, h => by
    have hall := lexes_indent indent (lexes_type varType (lexes_declarator hstmt h))
    simp only [emitStmt, stmtTokens, utf8Bytes_append, List.append_assoc, List.cons_append]
      at hall ⊢
    exact hall
  | .assign _ none value _, hstmt, _, _, h => by
    have hall := lexes_indent indent (lexes_name hstmt.1
      (lexes_assign (lexes_value value hstmt.2 h)) (closed_cons (by decide) _))
    simp only [emitStmt, stmtTokens, utf8Bytes_append, List.append_assoc, List.cons_append]
      at hall ⊢
    exact hall
  | .assign _ (some index) value _, hstmt, _, _, h => by
    have hindex := lexes_emitExpr index hstmt.2.1
      (lexes_rBracket (lexes_assign (lexes_value value hstmt.2.2 h))) (closed_cons (by decide) _)
    have hall := lexes_indent indent (lexes_name hstmt.1 (lexes_lBracket hindex)
      (closed_cons (by decide) _))
    simp only [emitStmt, stmtTokens, utf8Bytes_append, List.append_assoc, List.cons_append]
      at hall ⊢
    exact hall
  | .ifStmt condition thenBody none _, hstmt, _, _, h => by
    have hthen := lexes_emitStmts (indent + 1) thenBody hstmt.2
      (lexes_indent indent (lexes_rBrace (lexes_newline h)))
    have hall := lexes_indent indent (lexes_if (lexes_condition condition hstmt.1 hthen))
    simp only [emitStmt, stmtTokens, utf8Bytes_append, List.append_assoc, List.cons_append,
      List.nil_append] at hall ⊢
    exact hall
  | .ifStmt condition thenBody (some elseBody) _, hstmt, _, _, h => by
    have helse := lexes_emitStmts (indent + 1) elseBody hstmt.2.2
      (lexes_indent indent (lexes_rBrace (lexes_newline h)))
    have hthen := lexes_emitStmts (indent + 1) thenBody hstmt.2.1
      (lexes_indent indent (lexes_rBrace (lexes_else helse)))
    have hall := lexes_indent indent (lexes_if (lexes_condition condition hstmt.1 hthen))
    simp only [emitStmt, stmtTokens, utf8Bytes_append, List.append_assoc, List.cons_append,
      List.nil_append] at hall ⊢
    exact hall
  | .whileStmt condition body _, hstmt, _, _, h => by
    have hbody := lexes_emitStmts (indent + 1) body hstmt.2
      (lexes_indent indent (lexes_rBrace (lexes_newline h)))
    have hall := lexes_indent indent (lexes_while (lexes_condition condition hstmt.1 hbody))
    simp only [emitStmt, stmtTokens, utf8Bytes_append, List.append_assoc, List.cons_append,
      List.nil_append] at hall ⊢
    exact hall
  | .returnStmt value _, hstmt, _, _, h => by
    have hall := lexes_indent indent (lexes_return (lexes_value value hstmt h))
    simp only [emitStmt, stmtTokens, utf8Bytes_append, List.append_assoc, List.cons_append]
      at hall ⊢
    exact hall
  | .print value _, hstmt, _, _, h => by
    have hall := lexes_indent indent (lexes_print (lexes_value value hstmt h))
    simp only [emitStmt, stmtTokens, utf8Bytes_append, List.append_assoc, List.cons_append]
      at hall ⊢
    exact hall
  | .exprStmt expr _, hstmt, _, _, h => by
    have hall := lexes_indent indent (lexes_value expr hstmt h)
    simp only [emitStmt, stmtTokens, utf8Bytes_append, List.append_assoc, List.cons_append]
      at hall ⊢
    exact hall
termination_by structural stmt => stmt

theorem lexes_emitStmts (indent : Nat) : (stmts : List Stmt) → PrintableStmts stmts →
    ∀ {s kinds}, Lexes s kinds →
      Lexes (utf8Bytes (emitStmts indent stmts) ++ s) (stmtsTokens stmts ++ kinds)
  | [], _, _, _, h => h
  | stmt :: stmts, hstmts, _, _, h => by
    have hall := lexes_emitStmt indent stmt hstmts.1 (lexes_emitStmts indent stmts hstmts.2 h)
    rw [emitStmts, stmtsTokens, utf8Bytes_append, List.append_assoc, List.append_assoc]
    exact hall
termination_by structural stmts => stmts

end

theorem lexes_param {param : Param} (hparam : PrintableParam param) (h : Lexes s kinds)
    (hclosed : Closed s) :
    Lexes (utf8Bytes (emitParam param) ++ s) (paramTokens param ++ kinds) := by
  have hall := lexes_type param.paramType (lexes_name hparam.name h hclosed)
  simp only [emitParam, paramTokens, utf8Bytes_append, List.append_assoc, List.cons_append,
    List.nil_append] at hall ⊢
  exact hall

theorem lexes_moreParams {params : List Param} (hparams : ∀ param ∈ params, PrintableParam param)
    (h : Lexes s kinds) (hclosed : Closed s) :
    Lexes (utf8Bytes (afterFirst ", " (params.map emitParam)) ++ s)
        (moreParamsTokens params ++ kinds) ∧
      Closed (utf8Bytes (afterFirst ", " (params.map emitParam)) ++ s) := by
  induction params with
  | nil => exact ⟨h, hclosed⟩
  | cons param params ih =>
    obtain ⟨hparam, hparams⟩ := List.forall_mem_cons.mp hparams
    obtain ⟨hrest, hclosed⟩ := ih hparams
    have hall := lexes_comma (lexes_param hparam hrest hclosed)
    simp only [List.map_cons, afterFirst, moreParamsTokens, utf8Bytes_append, List.append_assoc,
      List.cons_append] at hall ⊢
    exact ⟨hall, closed_cons (by decide) _⟩

theorem lexes_params {params : List Param} (hparams : ∀ param ∈ params, PrintableParam param)
    (h : Lexes s kinds) (hclosed : Closed s) :
    Lexes (utf8Bytes (", ".intercalate (params.map emitParam)) ++ s)
      (paramsTokens params ++ kinds) := by
  cases params with
  | nil =>
    rw [List.map_nil, String.intercalate_nil]
    exact h
  | cons param params =>
    obtain ⟨hparam, hparams⟩ := List.forall_mem_cons.mp hparams
    obtain ⟨hrest, hclosed⟩ := lexes_moreParams hparams h hclosed
    rw [List.map_cons, intercalate_cons, paramsTokens, utf8Bytes_append, List.append_assoc,
      List.append_assoc]
    exact lexes_param hparam hrest hclosed

theorem lexes_function {function : Function} (hfunction : PrintableFunction function)
    (h : Lexes s kinds) :
    Lexes (utf8Bytes (emitFunction function) ++ s) (functionTokens function ++ kinds) := by
  have hbody := lexes_emitStmts 1 function.body hfunction.body (lexes_rBrace (lexes_newline h))
  have hparams := lexes_params hfunction.params (lexes_open hbody) (closed_cons (by decide) _)
  have hall := lexes_func (lexes_name hfunction.name (lexes_lParen hparams)
    (closed_cons (by decide) _))
  simp only [emitFunction, functionTokens, utf8Bytes_append, List.append_assoc, List.cons_append,
    List.nil_append] at hall ⊢
  exact hall

theorem lexes_functions {functions : List Function}
    (hfunctions : ∀ f ∈ functions, PrintableFunction f) (h : Lexes s kinds) :
    Lexes (utf8Bytes (afterFirst "\n" (functions.map emitFunction)) ++ s)
      (functions.flatMap functionTokens ++ kinds) := by
  induction functions with
  | nil => exact h
  | cons function functions ih =>
    obtain ⟨hfunction, hfunctions⟩ := List.forall_mem_cons.mp hfunctions
    have hall := lexes_newline (lexes_function hfunction (ih hfunctions))
    rw [List.map_cons, afterFirst, List.flatMap_cons, utf8Bytes_append, utf8Bytes_append,
      List.append_assoc, List.append_assoc, List.append_assoc]
    exact hall

theorem lexes_globals {globals : List GlobalVar}
    (hglobals : ∀ g ∈ globals, PrintableDecl g.varType g.name g.initExpr g.arraySize)
    (h : Lexes s kinds) : Lexes (utf8Bytes (String.join (globals.map emitGlobal)) ++ s)
      (globals.flatMap globalTokens ++ kinds) := by
  induction globals with
  | nil => exact h
  | cons g globals ih =>
    obtain ⟨hg, hglobals⟩ := List.forall_mem_cons.mp hglobals
    have hall := lexes_type g.varType (lexes_declarator hg (ih hglobals))
    rw [List.map_cons, String.join_cons, List.flatMap_cons, utf8Bytes_append, List.append_assoc,
      List.append_assoc]
    simp only [emitGlobal, globalTokens, utf8Bytes_append, List.append_assoc, List.cons_append]
      at hall ⊢
    exact hall

/-- A printed program has its tokens. -/
theorem lexes_program {program : Program} (h : PrintableProgram program) :
    Lexes (utf8Bytes (emitProgram program)) (programTokens program ++ [.eof]) := by
  have hfunctions : Lexes (utf8Bytes ("\n".intercalate (program.functions.map emitFunction)))
      (program.functions.flatMap functionTokens ++ [.eof]) := by
    have hprogram := h.functions
    generalize program.functions = functions at hprogram
    cases functions with
    | nil => exact lexes_nil
    | cons function functions =>
      obtain ⟨hfunction, hprogram⟩ := List.forall_mem_cons.mp hprogram
      have hall := lexes_function hfunction (lexes_functions hprogram lexes_nil)
      rw [List.append_nil] at hall
      rw [List.map_cons, intercalate_cons, utf8Bytes_append, List.flatMap_cons, List.append_assoc]
      exact hall
  rw [emitProgram, programTokens, utf8Bytes_append, utf8Bytes_append, List.append_assoc,
    List.append_assoc]
  refine lexes_globals h.globals ?_
  split
  · exact lexes_newline hfunctions
  · exact hfunctions

/-- **A printed program parses back.** -/
theorem parse_emitProgram {program : Program} (h : PrintableProgram program) :
    ∃ p, Parser.parse (tokenize (utf8Bytes (emitProgram program))) = .ok p ∧
      p.eraseSpans = program.eraseSpans :=
  Parser.parse_of_derives (tokenize_kinds (lexes_program h)) (derives_programTokens h)

end Fuzz

end MiniLang
