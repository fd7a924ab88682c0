import MiniLang.Bytecode.Compiler

/-!
# Layout of compiled code

The compiler appends instructions and patches the operands of its forward jumps. Here is what it
emits as a function of the syntax tree, of the slots of the names and of the address of the code:
nothing is patched and nothing is threaded through but the local slots. The compiler is then shown
to emit exactly this code.

## Why a second description

The compiler of the source works on one vector of instructions and knows the target of a forward
jump only when it gets there. Statements about a piece of its code would all carry the rest of the
vector along. `exprCode` and `stmtCode` give the code of a syntax tree at an address as a list, and
the target of each jump by the lengths of lists, so that every later argument is a structural
induction on the tree.

## The correspondence

`append` is the compiler after it has emitted some code, and each theorem says that a function of
the compiler is `append` of the code given here. Where the compiler patches, the instruction that
was emitted with a placeholder is inside what has just been appended (`patch_append`); the two
functions for branches, for loops and for `&&` and `||` are the only places where this is seen. The
slots of the locals change with declarations, on both sides alike.
-/

namespace MiniLang

namespace Compiler

/-- What the code of a syntax tree depends on, apart from its address. -/
structure Env where
  locals : HashMap String LocalVar
  nextLocalSlot : Nat
  globals : HashMap String GlobalInfo
  funcNameToId : HashMap String Nat

def env (c : Compiler) : Env := ⟨c.currentLocals, c.nextLocalSlot, c.globals, c.funcNameToId⟩

/-- The compiler after it has emitted `code`. -/
def append (c : Compiler) (code : List Instruction) : Compiler :=
  { c with instructions := c.instructions ++ code }

/-- The compiler with other local slots. -/
def withLocals (c : Compiler) (S : Env) : Compiler :=
  { c with currentLocals := S.locals, nextLocalSlot := S.nextLocalSlot }

namespace Env

/-! ## Expressions -/

/-- Code that loads or stores a name. -/
def accessCode (S : Env) (name : String) (localOp globalOp : Opcode) (sized : Bool) :
    List Instruction :=
  match S.locals.lookup name with
  | some loc => [⟨localOp, asI32 loc.slot, if sized then asI32 loc.arraySize else 0⟩]
  | none =>
    match S.globals.lookup name with
    | some glob => [⟨globalOp, asI32 glob.slot, if sized then asI32 glob.arraySize else 0⟩]
    | none => []

/-- The code of `&&` and `||` at `base`: the left operand decides whether `op` leads to the
instruction that loads `value`. -/
def shortCircuit (op : Opcode) (value : Int32) (base : Nat) (left right : List Instruction) :
    List Instruction :=
  left ++ ⟨op, asI32 (base + left.length + right.length + 4), 0⟩ :: right ++
    [⟨.loadConst, 0, 0⟩, .simple .ne, ⟨.jump, asI32 (base + left.length + right.length + 5), 0⟩,
      ⟨.loadConst, value, 0⟩]

mutual

/-- The code of an expression at an address. -/
def exprCode (S : Env) : Expr → Nat → List Instruction
  | .intLiteral value _, _ => [⟨.loadConst, value, 0⟩]
  | .boolLiteral value _, _ => [⟨.loadConst, if value then 1 else 0, 0⟩]
  | .identifier name _, _ => S.accessCode name .loadLocal .loadGlobal false
  | .binary op left right _, base =>
    let left := S.exprCode left base
    match op with
    | .and => shortCircuit .jumpIfFalse 0 base left (S.exprCode right (base + left.length + 1))
    | .or => shortCircuit .jumpIfTrue 1 base left (S.exprCode right (base + left.length + 1))
    | _ => left ++ S.exprCode right (base + left.length) ++ [.simple (binaryOpcode op)]
  | .unary op operand _, base => S.exprCode operand base ++ [.simple (unaryOpcode op)]
  | .call name args _, base =>
    S.argsCode args base ++
      [⟨.call, asI32 ((S.funcNameToId.lookup name).getD 0), asI32 args.length⟩]
  | .arrayIndex arrayName index _, base =>
    S.exprCode index base ++ S.accessCode arrayName .localArrayLoad .arrayLoad true
termination_by structural expr => expr

def argsCode (S : Env) : List Expr → Nat → List Instruction
  | [], _ => []
  | arg :: args, base =>
    let code := S.exprCode arg base
    code ++ S.argsCode args (base + code.length)
termination_by structural args => args

end

/-- The operands of the other operators are both evaluated. -/
theorem exprCode_strict {S : Env} {op : BinaryOp} (hand : op ≠ .and) (hor : op ≠ .or)
    (left right : Expr) (span : Span) (base : Nat) :
    S.exprCode (.binary op left right span) base = S.exprCode left base ++
      S.exprCode right (base + (S.exprCode left base).length) ++ [.simple (binaryOpcode op)] := by
  cases op with
  | and => exact absurd rfl hand
  | or => exact absurd rfl hor
  | _ => rfl

/-! ## Statements -/

def assignCode (S : Env) (target : String) (indexExpr : Option Expr) (value : Expr)
    (base : Nat) : List Instruction :=
  if target ∈ S.locals ∨ target ∈ S.globals then
    match indexExpr with
    | some idxExpr =>
      let index := S.exprCode idxExpr base
      index ++ S.exprCode value (base + index.length) ++
        S.accessCode target .localArrayStore .arrayStore true
    | none => S.exprCode value base ++ S.accessCode target .storeLocal .storeGlobal false
  else []

/-- The environment after a declaration. -/
def declareLocal (S : Env) (name : String) (arraySize : Option Int32) : Env :=
  if name ∈ S.locals then S
  else { S with
    nextLocalSlot := S.nextLocalSlot + 1
    locals := S.locals.insert name
      ⟨S.nextLocalSlot, arraySize.isSome, (arraySize.map arrayUsize).getD 0⟩ }

/-- The code of a declaration, where the name already has its slot. -/
def varDeclCode (S : Env) (name : String) (initExpr : Option Expr) (base : Nat) :
    List Instruction :=
  match S.locals.lookup name with
  | none => []
  | some loc =>
    if loc.isArray then
      [⟨.allocArray, asI32 loc.arraySize, 0⟩, ⟨.storeLocal, asI32 loc.slot, 0⟩]
    else match initExpr with
      | some init => S.exprCode init base ++ [⟨.storeLocal, asI32 loc.slot, 0⟩]
      | none => []

mutual

/-- The environment after a statement: its declarations stay. -/
def afterStmt (S : Env) : Stmt → Env
  | .varDecl _ name _ arraySize _ => S.declareLocal name arraySize
  | .ifStmt _ thenBody none _ => S.afterStmts thenBody
  | .ifStmt _ thenBody (some elseBody) _ => (S.afterStmts thenBody).afterStmts elseBody
  | .whileStmt _ body _ => S.afterStmts body
  | .assign .. => S
  | .returnStmt .. => S
  | .print .. => S
  | .exprStmt .. => S
termination_by structural stmt => stmt

def afterStmts (S : Env) : List Stmt → Env
  | [] => S
  | stmt :: stmts => (S.afterStmt stmt).afterStmts stmts
termination_by structural stmts => stmts

end

def ifCode (base : Nat) (condition thenBody : List Instruction) : List Instruction :=
  condition ++ ⟨.jumpIfFalse, asI32 (base + condition.length + thenBody.length + 1), 0⟩ :: thenBody

def ifElseCode (base : Nat) (condition thenBody elseBody : List Instruction) : List Instruction :=
  let elsePc := base + condition.length + thenBody.length + 2
  condition ++ ⟨.jumpIfFalse, asI32 elsePc, 0⟩ :: thenBody ++
    ⟨.jump, asI32 (elsePc + elseBody.length), 0⟩ :: elseBody

def whileCode (base : Nat) (condition body : List Instruction) : List Instruction :=
  condition ++ ⟨.jumpIfFalse, asI32 (base + condition.length + body.length + 2), 0⟩ :: body ++
    [⟨.jump, asI32 base, 0⟩]

mutual

/-- The code of a statement at an address. -/
def stmtCode (S : Env) : Stmt → Nat → List Instruction
  | .varDecl _ name initExpr arraySize _, base =>
    (S.declareLocal name arraySize).varDeclCode name initExpr base
  | .assign target indexExpr value _, base => S.assignCode target indexExpr value base
  | .ifStmt condition thenBody none _, base =>
    let condition := S.exprCode condition base
    ifCode base condition (S.stmtsCode thenBody (base + condition.length + 1))
  | .ifStmt condition thenBody (some elseBody) _, base =>
    let condition := S.exprCode condition base
    let elseEnv := S.afterStmts thenBody
    let thenBody := S.stmtsCode thenBody (base + condition.length + 1)
    let elseBody := elseEnv.stmtsCode elseBody (base + condition.length + thenBody.length + 2)
    ifElseCode base condition thenBody elseBody
  | .whileStmt condition body _, base =>
    let condition := S.exprCode condition base
    whileCode base condition (S.stmtsCode body (base + condition.length + 1))
  | .returnStmt value _, base => S.exprCode value base ++ [.simple .return]
  | .print value _, base => S.exprCode value base ++ [.simple .print]
  | .exprStmt expr _, base => S.exprCode expr base ++ [.simple .pop]
termination_by structural stmt => stmt

def stmtsCode (S : Env) : List Stmt → Nat → List Instruction
  | [], _ => []
  | stmt :: stmts, base =>
    let code := S.stmtCode stmt base
    code ++ (S.afterStmt stmt).stmtsCode stmts (base + code.length)
termination_by structural stmts => stmts

end

end Env

/-! ## The compiler emits this code -/

variable {c : Compiler}

@[simp] theorem append_nil (c : Compiler) : c.append [] = c := by
  rw [append, List.append_nil]

@[simp] theorem append_append (c : Compiler) (code code' : List Instruction) :
    (c.append code).append code' = c.append (code ++ code') := by
  rw [append, append, append, List.append_assoc]

@[simp] theorem env_append (c : Compiler) (code : List Instruction) :
    (c.append code).env = c.env := rfl

@[simp] theorem currentPc_append (c : Compiler) (code : List Instruction) :
    (c.append code).currentPc = c.currentPc + code.length := List.length_append

@[simp] theorem currentLocals_append (c : Compiler) (code : List Instruction) :
    (c.append code).currentLocals = c.currentLocals := rfl

@[simp] theorem globals_append (c : Compiler) (code : List Instruction) :
    (c.append code).globals = c.globals := rfl

theorem emit_eq (c : Compiler) (opcode : Opcode) (arg1 arg2 : Int32) :
    c.emit opcode arg1 arg2 = c.append [⟨opcode, arg1, arg2⟩] := rfl

@[simp] theorem env_emit (c : Compiler) (opcode : Opcode) (arg1 arg2 : Int32) :
    (c.emit opcode arg1 arg2).env = c.env := rfl

@[simp] theorem currentPc_emit (c : Compiler) (opcode : Opcode) (arg1 arg2 : Int32) :
    (c.emit opcode arg1 arg2).currentPc = c.currentPc + 1 := List.length_append

@[simp] theorem currentPc_patch (c : Compiler) (pc : Nat) (arg1 : Int32) :
    (c.patch pc arg1).currentPc = c.currentPc := List.length_modify ..

theorem emitSimple_eq (c : Compiler) (opcode : Opcode) :
    c.emitSimple opcode = c.append [.simple opcode] := rfl

/-- Patching an instruction that was just emitted. -/
theorem patch_append (c : Compiler) (code rest : List Instruction) (instr : Instruction)
    (arg1 : Int32) {pc : Nat} (hpc : pc = c.currentPc + code.length) :
    (c.append (code ++ instr :: rest)).patch pc arg1 =
      c.append (code ++ { instr with arg1 := arg1 } :: rest) := by
  have hmodify (f : Instruction → Instruction) (l : List Instruction) :
      (l ++ instr :: rest).modify l.length f = l ++ f instr :: rest := by
    induction l with
    | nil => rfl
    | cons i l ih => exact congrArg (i :: ·) ih
  subst hpc
  rw [patch, append, append, ← List.append_assoc, ← List.append_assoc, currentPc,
    ← List.length_append, hmodify]

theorem emitAccess_eq (c : Compiler) (name : String) (localOp globalOp : Opcode) (sized : Bool) :
    c.emitAccess name localOp globalOp sized =
      c.append (c.env.accessCode name localOp globalOp sized) := by
  rw [emitAccess, Env.accessCode, env]
  dsimp only
  cases c.currentLocals.lookup name with
  | some loc => rfl
  | none =>
    cases c.globals.lookup name with
    | some glob => rfl
    | none => exact (append_nil c).symm

/-- The code of `&&` and `||`, with its two jumps patched. -/
theorem emit_shortCircuit (c : Compiler) (op : Opcode) (value : Int32)
    (left right : List Instruction) :
    let left' := c.append left
    let right' := (((left'.emit op 0 0).append right).emit .loadConst 0 0).emitSimple .ne
    let jump := right'.emit .jump 0 0
    let short := (jump.patch left'.currentPc (asI32 jump.currentPc)).emit .loadConst value 0
    short.patch right'.currentPc (asI32 short.currentPc) =
      c.append (Env.shortCircuit op value c.currentPc left right) := by
  intro left' right' jump short
  have hright : right' = c.append (left ++ ⟨op, 0, 0⟩ ::
      (right ++ [⟨.loadConst, 0, 0⟩, .simple .ne])) := by
    simp [right', left', emit_eq, emitSimple_eq]
  have hjump : jump = c.append (left ++ ⟨op, 0, 0⟩ ::
      (right ++ [⟨.loadConst, 0, 0⟩, .simple .ne, ⟨.jump, 0, 0⟩])) := by
    simp [jump, hright, emit_eq]
  have hshort : short = c.append ((left ++ ⟨op, asI32 jump.currentPc, 0⟩ ::
      (right ++ [⟨.loadConst, 0, 0⟩, .simple .ne])) ++ ⟨.jump, 0, 0⟩ :: [⟨.loadConst, value, 0⟩]) := by
    simp only [short]
    rw [hjump, patch_append c left _ _ _ (currentPc_append ..), emit_eq, append_append]
    simp
  rw [hshort, patch_append]
  · have hshortPc : jump.currentPc = c.currentPc + left.length + right.length + 4 := by
      simp only [hjump, currentPc_append, List.length_append, List.length_cons, List.length_nil]
      omega
    have hendPc : (c.append ((left ++ ⟨op, asI32 jump.currentPc, 0⟩ ::
        (right ++ [⟨.loadConst, 0, 0⟩, .simple .ne])) ++ ⟨.jump, 0, 0⟩ ::
          [⟨.loadConst, value, 0⟩])).currentPc = c.currentPc + left.length + right.length + 5 := by
      simp only [currentPc_append, List.length_append, List.length_cons, List.length_nil]
      omega
    rw [hendPc, hshortPc, Env.shortCircuit]
    simp
  · rw [hright, currentPc_append]
    simp

theorem compileExpr_strict {op : BinaryOp} (hand : op ≠ .and) (hor : op ≠ .or)
    (left right : Expr) (span : Span) : c.compileExpr (.binary op left right span) =
      ((c.compileExpr left).compileExpr right).emitSimple (binaryOpcode op) := by
  cases op with
  | and => exact absurd rfl hand
  | or => exact absurd rfl hor
  | _ => rfl

mutual

/-- The compiler emits the code of an expression. -/
theorem compileExpr_eq (c : Compiler) : (e : Expr) →
    c.compileExpr e = c.append (c.env.exprCode e c.currentPc)
  | .intLiteral value _ => rfl
  | .boolLiteral value _ => rfl
  | .identifier name _ => emitAccess_eq c name .loadLocal .loadGlobal false
  | .binary op left right _ => by
    have hright (left : List Instruction) (op : Opcode) :
        ((c.append left).emit op 0 0).compileExpr right =
          ((c.append left).emit op 0 0).append
            (c.env.exprCode right (c.currentPc + left.length + 1)) := by
      rw [compileExpr_eq _ right, emit_eq, currentPc_append, currentPc_append]
      rfl
    cases op with
    | and =>
      rw [compileExpr, Env.exprCode, compileExpr_eq c left]
      rw [hright]
      exact emit_shortCircuit ..
    | or =>
      rw [compileExpr, Env.exprCode, compileExpr_eq c left]
      rw [hright]
      exact emit_shortCircuit ..
    | _ =>
      rw [compileExpr_strict (by decide) (by decide), Env.exprCode_strict (by decide) (by decide),
        compileExpr_eq c left, compileExpr_eq _ right, emitSimple_eq, append_append, append_append, env_append,
        currentPc_append, List.append_assoc]
  | .unary op operand _ => by
    rw [compileExpr, Env.exprCode, compileExpr_eq c operand, emitSimple_eq, append_append]
  | .call name args _ => by
    rw [compileExpr, Env.exprCode, compileArgs_eq c args]
    exact append_append ..
  | .arrayIndex arrayName index _ => by
    rw [compileExpr, Env.exprCode, compileExpr_eq c index, emitAccess_eq, append_append]
    rfl
termination_by structural e => e

theorem compileArgs_eq (c : Compiler) : (args : List Expr) →
    c.compileArgs args = c.append (c.env.argsCode args c.currentPc)
  | [] => (append_nil c).symm
  | arg :: args => by
    rw [compileArgs, Env.argsCode, compileExpr_eq c arg, compileArgs_eq _ args, append_append,
      currentPc_append]
    rfl
termination_by structural args => args

end

/-! ### Statements -/

namespace Env

variable {S : Env}

@[simp] theorem globals_declareLocal (S : Env) (name : String) (arraySize : Option Int32) :
    (S.declareLocal name arraySize).globals = S.globals := by
  rw [declareLocal]
  split <;> rfl

@[simp] theorem funcNameToId_declareLocal (S : Env) (name : String) (arraySize : Option Int32) :
    (S.declareLocal name arraySize).funcNameToId = S.funcNameToId := by
  rw [declareLocal]
  split <;> rfl

mutual

@[simp] theorem globals_afterStmt (S : Env) : (stmt : Stmt) →
    (S.afterStmt stmt).globals = S.globals
  | .varDecl _ name _ arraySize _ => S.globals_declareLocal name arraySize
  | .ifStmt _ thenBody none _ => S.globals_afterStmts thenBody
  | .ifStmt _ thenBody (some elseBody) _ =>
    (globals_afterStmts _ elseBody).trans (S.globals_afterStmts thenBody)
  | .whileStmt _ body _ => S.globals_afterStmts body
  | .assign .. => rfl
  | .returnStmt .. => rfl
  | .print .. => rfl
  | .exprStmt .. => rfl
termination_by structural stmt => stmt

@[simp] theorem globals_afterStmts (S : Env) : (stmts : List Stmt) →
    (S.afterStmts stmts).globals = S.globals
  | [] => rfl
  | stmt :: stmts => (globals_afterStmts _ stmts).trans (S.globals_afterStmt stmt)
termination_by structural stmts => stmts

end

mutual

@[simp] theorem funcNameToId_afterStmt (S : Env) : (stmt : Stmt) →
    (S.afterStmt stmt).funcNameToId = S.funcNameToId
  | .varDecl _ name _ arraySize _ => S.funcNameToId_declareLocal name arraySize
  | .ifStmt _ thenBody none _ => S.funcNameToId_afterStmts thenBody
  | .ifStmt _ thenBody (some elseBody) _ =>
    (funcNameToId_afterStmts _ elseBody).trans (S.funcNameToId_afterStmts thenBody)
  | .whileStmt _ body _ => S.funcNameToId_afterStmts body
  | .assign .. => rfl
  | .returnStmt .. => rfl
  | .print .. => rfl
  | .exprStmt .. => rfl
termination_by structural stmt => stmt

@[simp] theorem funcNameToId_afterStmts (S : Env) : (stmts : List Stmt) →
    (S.afterStmts stmts).funcNameToId = S.funcNameToId
  | [] => rfl
  | stmt :: stmts => (funcNameToId_afterStmts _ stmts).trans (S.funcNameToId_afterStmt stmt)
termination_by structural stmts => stmts

end

end Env

@[simp] theorem currentPc_withLocals (c : Compiler) (S : Env) :
    (c.withLocals S).currentPc = c.currentPc := rfl

@[simp] theorem withLocals_env (c : Compiler) : c.withLocals c.env = c := rfl

@[simp] theorem withLocals_withLocals (c : Compiler) (S S' : Env) :
    (c.withLocals S).withLocals S' = c.withLocals S' := rfl

@[simp] theorem append_withLocals (c : Compiler) (S : Env) (code : List Instruction) :
    (c.withLocals S).append code = (c.append code).withLocals S := rfl

@[simp] theorem emit_withLocals (c : Compiler) (S : Env) (opcode : Opcode) (arg1 arg2 : Int32) :
    (c.withLocals S).emit opcode arg1 arg2 = (c.emit opcode arg1 arg2).withLocals S := rfl

@[simp] theorem patch_withLocals (c : Compiler) (S : Env) (pc : Nat) (arg1 : Int32) :
    (c.withLocals S).patch pc arg1 = (c.patch pc arg1).withLocals S := rfl

theorem env_withLocals {S : Env} (hglobals : S.globals = c.globals)
    (hfuncs : S.funcNameToId = c.funcNameToId) : (c.withLocals S).env = S := by
  obtain ⟨locals, next, globals, funcs⟩ := S
  subst hglobals hfuncs
  rfl

@[simp] theorem env_afterStmt (c : Compiler) (code : List Instruction) (stmt : Stmt) :
    ((c.append code).withLocals (c.env.afterStmt stmt)).env = c.env.afterStmt stmt :=
  env_withLocals (c.env.globals_afterStmt stmt) (c.env.funcNameToId_afterStmt stmt)

@[simp] theorem env_afterStmts (c : Compiler) (code : List Instruction) (stmts : List Stmt) :
    ((c.append code).withLocals (c.env.afterStmts stmts)).env = c.env.afterStmts stmts :=
  env_withLocals (c.env.globals_afterStmts stmts) (c.env.funcNameToId_afterStmts stmts)

theorem declareLocal_eq (c : Compiler) (name : String) (arraySize : Option Int32) :
    c.declareLocal name arraySize = c.withLocals (c.env.declareLocal name arraySize) := by
  rw [declareLocal, Env.declareLocal, env]
  dsimp only
  split <;> rfl

mutual

/-- The first pass declares what the second pass declares. -/
theorem collectStmtDecls_eq (c : Compiler) : (stmt : Stmt) →
    c.collectStmtDecls stmt = c.withLocals (c.env.afterStmt stmt)
  | .varDecl _ name _ arraySize _ => declareLocal_eq c name arraySize
  | .ifStmt _ thenBody none _ => collectLocalDecls_eq c thenBody
  | .ifStmt _ thenBody (some elseBody) _ => by
    rw [collectStmtDecls, collectLocalDecls_eq c thenBody, collectLocalDecls_eq _ elseBody,
      env_withLocals (c.env.globals_afterStmts _) (c.env.funcNameToId_afterStmts _)]
    rfl
  | .whileStmt _ body _ => collectLocalDecls_eq c body
  | .assign .. => rfl
  | .returnStmt .. => rfl
  | .print .. => rfl
  | .exprStmt .. => rfl
termination_by structural stmt => stmt

theorem collectLocalDecls_eq (c : Compiler) : (stmts : List Stmt) →
    c.collectLocalDecls stmts = c.withLocals (c.env.afterStmts stmts)
  | [] => rfl
  | stmt :: stmts => by
    rw [collectLocalDecls, collectStmtDecls_eq c stmt, collectLocalDecls_eq _ stmts,
      env_withLocals (c.env.globals_afterStmt _) (c.env.funcNameToId_afterStmt _)]
    rfl
termination_by structural stmts => stmts

end

theorem compileAssign_eq (c : Compiler) (target : String) (indexExpr : Option Expr)
    (value : Expr) : c.compileAssign target indexExpr value =
      c.append (c.env.assignCode target indexExpr value c.currentPc) := by
  by_cases hdeclared : target ∈ c.currentLocals ∨ target ∈ c.globals
  · have henv : target ∈ c.env.locals ∨ target ∈ c.env.globals := hdeclared
    cases indexExpr with
    | some index =>
      rw [compileAssign, if_pos hdeclared, Env.assignCode, if_pos henv, compileExpr_eq c index,
        compileExpr_eq _ value, emitAccess_eq, append_append, append_append, currentPc_append,
        ← List.append_assoc]
      rfl
    | none =>
      rw [compileAssign, if_pos hdeclared, Env.assignCode, if_pos henv, compileExpr_eq c value,
        emitAccess_eq, append_append]
      rfl
  · have henv : ¬(target ∈ c.env.locals ∨ target ∈ c.env.globals) := hdeclared
    cases indexExpr with
    | some index =>
      rw [compileAssign, if_neg hdeclared, Env.assignCode, if_neg henv, append_nil]
    | none => rw [compileAssign, if_neg hdeclared, Env.assignCode, if_neg henv, append_nil]

theorem compileVarDecl_eq (c : Compiler) (name : String) (initExpr : Option Expr)
    (arraySize : Option Int32) : c.compileVarDecl name initExpr arraySize =
      (c.append ((c.env.declareLocal name arraySize).varDeclCode name initExpr c.currentPc)).withLocals
        (c.env.declareLocal name arraySize) := by
  have henv := env_withLocals (c.env.globals_declareLocal name arraySize)
    (c.env.funcNameToId_declareLocal name arraySize)
  rw [compileVarDecl, declareLocal_eq, Env.varDeclCode]
  cases hloc : (c.env.declareLocal name arraySize).locals.lookup name with
  | none =>
    rw [append_nil, show (c.withLocals (c.env.declareLocal name arraySize)).currentLocals.lookup
      name = none from hloc]
  | some loc =>
    rw [show (c.withLocals (c.env.declareLocal name arraySize)).currentLocals.lookup name = some loc
      from hloc]
    dsimp only
    split
    · rw [emit_eq, emit_eq, append_append]
      rfl
    · cases initExpr with
      | none => rw [append_nil]
      | some init =>
        dsimp only
        rw [compileExpr_eq, henv, emit_eq, append_append]
        rfl

/-- The code of a branch, with its jump patched. -/
theorem emit_ifCode (c : Compiler) (condition thenBody : List Instruction) :
    let jump := (c.append condition).emit .jumpIfFalse 0 0
    let thenBody' := jump.append thenBody
    thenBody'.patch (c.append condition).currentPc (asI32 thenBody'.currentPc) =
      c.append (Env.ifCode c.currentPc condition thenBody) := by
  intro jump thenBody'
  have hthen : thenBody' = c.append (condition ++ ⟨.jumpIfFalse, 0, 0⟩ :: thenBody) := by
    simp [thenBody', jump, emit_eq]
  have hpc : thenBody'.currentPc = c.currentPc + condition.length + thenBody.length + 1 := by
    simp only [hthen, currentPc_append, List.length_append, List.length_cons]
    omega
  rw [hpc, hthen, patch_append _ _ _ _ _ (currentPc_append ..), Env.ifCode]

/-- The code of a branch with two arms, with its two jumps patched. -/
theorem emit_ifElseCode (c : Compiler) (condition thenBody elseBody : List Instruction) :
    let thenBody' := ((c.append condition).emit .jumpIfFalse 0 0).append thenBody
    let jump := thenBody'.emit .jump 0 0
    let elseBody' := (jump.patch (c.append condition).currentPc (asI32 jump.currentPc)).append
      elseBody
    elseBody'.patch thenBody'.currentPc (asI32 elseBody'.currentPc) =
      c.append (Env.ifElseCode c.currentPc condition thenBody elseBody) := by
  intro thenBody' jump elseBody'
  have hthen : thenBody' = c.append (condition ++ ⟨.jumpIfFalse, 0, 0⟩ :: thenBody) := by
    simp [thenBody', emit_eq]
  have hjump : jump = c.append (condition ++ ⟨.jumpIfFalse, 0, 0⟩ ::
      (thenBody ++ [⟨.jump, 0, 0⟩])) := by
    simp [jump, hthen, emit_eq]
  have hjumpPc : jump.currentPc = c.currentPc + condition.length + thenBody.length + 2 := by
    simp only [hjump, currentPc_append, List.length_append, List.length_cons, List.length_nil]
    omega
  have helse : elseBody' = c.append ((condition ++ ⟨.jumpIfFalse, asI32 jump.currentPc, 0⟩ ::
      thenBody) ++ ⟨.jump, 0, 0⟩ :: elseBody) := by
    simp only [elseBody']
    rw [hjumpPc, hjump, patch_append _ _ _ _ _ (currentPc_append ..), append_append]
    simp
  have helsePc : elseBody'.currentPc =
      c.currentPc + condition.length + thenBody.length + 2 + elseBody.length := by
    simp only [helse, currentPc_append, List.length_append, List.length_cons]
    omega
  rw [helsePc, helse, hjumpPc, patch_append, Env.ifElseCode]
  rw [hthen, currentPc_append]
  simp

/-- The code of a loop, with its exit patched. -/
theorem emit_whileCode (c : Compiler) (condition body : List Instruction) :
    let body' := ((c.append condition).emit .jumpIfFalse 0 0).append body
    let jump := body'.emit .jump (asI32 c.currentPc) 0
    jump.patch (c.append condition).currentPc (asI32 jump.currentPc) =
      c.append (Env.whileCode c.currentPc condition body) := by
  intro body' jump
  have hjump : jump = c.append (condition ++ ⟨.jumpIfFalse, 0, 0⟩ ::
      (body ++ [⟨.jump, asI32 c.currentPc, 0⟩])) := by
    simp [jump, body', emit_eq]
  have hpc : jump.currentPc = c.currentPc + condition.length + body.length + 2 := by
    simp only [hjump, currentPc_append, List.length_append, List.length_cons, List.length_nil]
    omega
  rw [hpc, hjump, patch_append _ _ _ _ _ (currentPc_append ..), Env.whileCode]
  simp

mutual

/-- The compiler emits the code of a statement. -/
theorem compileStmt_eq (c : Compiler) : (stmt : Stmt) → c.compileStmt stmt =
    (c.append (c.env.stmtCode stmt c.currentPc)).withLocals (c.env.afterStmt stmt)
  | .varDecl _ name initExpr arraySize _ => compileVarDecl_eq c name initExpr arraySize
  | .assign target indexExpr value _ => compileAssign_eq c target indexExpr value
  | .ifStmt condition thenBody none _ => by
    have hthen := compileStmts_eq
      ((c.append (c.env.exprCode condition c.currentPc)).emit .jumpIfFalse 0 0) thenBody
    rw [env_emit, env_append, currentPc_emit, currentPc_append] at hthen
    rw [compileStmt, compileExpr_eq c condition, hthen]
    exact congrArg (withLocals · (c.env.afterStmts thenBody)) (emit_ifCode c
      (c.env.exprCode condition c.currentPc) (c.env.stmtsCode thenBody _))
  | .ifStmt condition thenBody (some elseBody) _ => by
    have hthen := compileStmts_eq
      ((c.append (c.env.exprCode condition c.currentPc)).emit .jumpIfFalse 0 0) thenBody
    rw [env_emit, env_append, currentPc_emit, currentPc_append] at hthen
    have helse (c' : Compiler) (pc : Nat) (hglobals : c'.globals = c.globals)
        (hfuncs : c'.funcNameToId = c.funcNameToId) (hpc : c'.currentPc = pc) :
        (c'.withLocals (c.env.afterStmts thenBody)).compileStmts elseBody =
          (c'.append ((c.env.afterStmts thenBody).stmtsCode elseBody pc)).withLocals
            ((c.env.afterStmts thenBody).afterStmts elseBody) := by
      have h := compileStmts_eq (c'.withLocals (c.env.afterStmts thenBody)) elseBody
      rw [env_withLocals ((c.env.globals_afterStmts _).trans hglobals.symm)
        ((c.env.funcNameToId_afterStmts _).trans hfuncs.symm), currentPc_withLocals, hpc] at h
      exact h
    rw [compileStmt, compileExpr_eq c condition, hthen]
    refine Eq.trans ?_ (congrArg (withLocals · ((c.env.afterStmts thenBody).afterStmts elseBody))
      (emit_ifElseCode c (c.env.exprCode condition c.currentPc) (c.env.stmtsCode thenBody _)
        ((c.env.afterStmts thenBody).stmtsCode elseBody _)))
    simp only [emit_withLocals, patch_withLocals, currentPc_withLocals]
    rw [helse _ (c.currentPc + (c.env.exprCode condition c.currentPc).length +
      (c.env.stmtsCode thenBody _).length + 2) ?_ ?_ ?_]
    · rfl
    · rfl
    · rfl
    · simp only [currentPc_patch, currentPc_emit, currentPc_append]
      omega
  | .whileStmt condition body _ => by
    have hbody := compileStmts_eq
      ((c.append (c.env.exprCode condition c.currentPc)).emit .jumpIfFalse 0 0) body
    rw [env_emit, env_append, currentPc_emit, currentPc_append] at hbody
    rw [compileStmt, compileExpr_eq c condition, hbody]
    exact congrArg (withLocals · (c.env.afterStmts body)) (emit_whileCode c
      (c.env.exprCode condition c.currentPc) (c.env.stmtsCode body _))
  | .returnStmt value _ => by
    rw [compileStmt, compileExpr_eq c value, emitSimple_eq, append_append]
    rfl
  | .print value _ => by
    rw [compileStmt, compileExpr_eq c value, emitSimple_eq, append_append]
    rfl
  | .exprStmt expr _ => by
    rw [compileStmt, compileExpr_eq c expr, emitSimple_eq, append_append]
    rfl
termination_by structural stmt => stmt

theorem compileStmts_eq (c : Compiler) : (stmts : List Stmt) → c.compileStmts stmts =
    (c.append (c.env.stmtsCode stmts c.currentPc)).withLocals (c.env.afterStmts stmts)
  | [] => by
    rw [Env.stmtsCode, append_nil]
    rfl
  | stmt :: stmts => by
    rw [compileStmts, compileStmt_eq c stmt, compileStmts_eq _ stmts, env_afterStmt,
      currentPc_withLocals, currentPc_append, append_withLocals, append_append]
    rfl
termination_by structural stmts => stmts

end

end Compiler

end MiniLang
