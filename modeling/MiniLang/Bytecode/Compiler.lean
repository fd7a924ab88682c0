import MiniLang.Syntax.Ast
import MiniLang.Bytecode.Program

/-!
# Bytecode compiler

The compiler walks the syntax tree, appends instructions and patches forward jumps once their target
is known. The arena that interns names is not modelled: nothing reads it back.

## Two passes

A function is compiled in two passes over its body. The first one declares every local, so that the
number of slots is known; then the table is cut back to the parameters, and the second pass declares
the locals again where it emits their code. A name that is declared before has its slot already, so
that a name has one slot throughout the function, and the second declaration changes nothing. That
both passes number alike is proved in `Bytecode.SlotAgreement`, not assumed here.

## Addresses

Instructions are appended to one vector for all functions, and a jump has the absolute address of
its target as `i32`. A forward jump is emitted with a placeholder that `patch` replaces. The cast
wraps around, as in the source, for code of `2 ^ 31` instructions and more.
-/

namespace MiniLang

/-- Local variable during compilation. -/
structure LocalVar where
  slot : Nat
  isArray : Bool
  arraySize : Nat
deriving DecidableEq

structure Compiler where
  instructions : List Instruction
  functions : HashMap Nat FunctionInfo
  globals : HashMap String GlobalInfo
  funcNameToId : HashMap String Nat
  -- Current function state
  currentLocals : HashMap String LocalVar
  nextLocalSlot : Nat
  -- Global allocation
  nextGlobalSlot : Nat
  nextFuncId : Nat
  mainFuncId : Option Nat

namespace Compiler

def new : Compiler where
  instructions := []
  functions := ∅
  globals := ∅
  funcNameToId := ∅
  currentLocals := ∅
  nextLocalSlot := 0
  nextGlobalSlot := 0
  nextFuncId := 0
  mainFuncId := none

/-- `n as i32` for a `usize`. -/
def asI32 (n : Nat) : Int32 := Int32.ofNat n

/-- `size as usize` for an array size. -/
def arrayUsize (size : Int32) : Nat := asUsize size

def emit (c : Compiler) (opcode : Opcode) (arg1 arg2 : Int32) : Compiler :=
  { c with instructions := c.instructions ++ [⟨opcode, arg1, arg2⟩] }

def emitSimple (c : Compiler) (opcode : Opcode) : Compiler := c.emit opcode 0 0

def patch (c : Compiler) (pc : Nat) (arg1 : Int32) : Compiler :=
  { c with instructions := c.instructions.modify pc fun i ↦ { i with arg1 := arg1 } }

def currentPc (c : Compiler) : Nat := c.instructions.length

/-! ## Globals and functions -/

def collectGlobals (c : Compiler) : List GlobalVar → Compiler
  | [] => c
  | glob :: globs =>
    let slot := c.nextGlobalSlot
    let (width, size) := match glob.arraySize with
      | some arrSize => (arrayUsize arrSize, arrayUsize arrSize)
      | none => (1, 0)
    let info : GlobalInfo := ⟨glob.name, slot, glob.arraySize.isSome, size⟩
    collectGlobals { c with
      nextGlobalSlot := slot + width
      globals := c.globals.insert glob.name info } globs

def registerFunctions (c : Compiler) : List Function → Compiler
  | [] => c
  | func :: funcs =>
    let id := c.nextFuncId
    registerFunctions { c with
      nextFuncId := id + 1
      funcNameToId := c.funcNameToId.insert func.name id
      mainFuncId := if func.name = "main" then some id else c.mainFuncId } funcs

/-! ## Locals -/

/-- Give `name` the next local slot, unless it has one. -/
def declareLocal (c : Compiler) (name : String) (arraySize : Option Int32) : Compiler :=
  if name ∈ c.currentLocals then c
  else { c with
    nextLocalSlot := c.nextLocalSlot + 1
    currentLocals := c.currentLocals.insert name
      ⟨c.nextLocalSlot, arraySize.isSome, (arraySize.map arrayUsize).getD 0⟩ }

def allocateParams (c : Compiler) : List Param → Compiler
  | [] => c
  | param :: params =>
    allocateParams { c with
      currentLocals := c.currentLocals.insert param.name ⟨c.nextLocalSlot, false, 0⟩
      nextLocalSlot := c.nextLocalSlot + 1 } params

mutual

def collectStmtDecls (c : Compiler) : Stmt → Compiler
  | .varDecl _ name _ arraySize _ => c.declareLocal name arraySize
  | .ifStmt _ thenBody none _ => c.collectLocalDecls thenBody
  | .ifStmt _ thenBody (some elseBody) _ =>
    (c.collectLocalDecls thenBody).collectLocalDecls elseBody
  | .whileStmt _ body _ => c.collectLocalDecls body
  | .assign .. => c
  | .returnStmt .. => c
  | .print .. => c
  | .exprStmt .. => c
termination_by structural stmt => stmt

def collectLocalDecls (c : Compiler) : List Stmt → Compiler
  | [] => c
  | stmt :: stmts => (c.collectStmtDecls stmt).collectLocalDecls stmts
termination_by structural stmts => stmts

end

/-! ## Expressions -/

/-- The opcode of a binary operator that is not short-circuited. -/
def binaryOpcode : BinaryOp → Opcode
  | .add => .add
  | .sub => .sub
  | .mul => .mul
  | .div => .div
  | .eq => .eq
  | .ne => .ne
  | .lt => .lt
  | .gt => .gt
  | .le => .le
  | .ge => .ge
  | .and => .and
  | .or => .or

def unaryOpcode : UnaryOp → Opcode
  | .neg => .neg
  | .not => .not

/-- `func_name_to_id[name]`; the source panics on a name that is not registered, which semantic
analysis excludes. -/
def funcId (c : Compiler) (name : String) : Nat := (c.funcNameToId.lookup name).getD 0

/-- Load or store of a name: local slot first, then global slot, else nothing is emitted. -/
def emitAccess (c : Compiler) (name : String) (localOp globalOp : Opcode)
    (sized : Bool) : Compiler :=
  match c.currentLocals.lookup name with
  | some loc => c.emit localOp (asI32 loc.slot) (if sized then asI32 loc.arraySize else 0)
  | none =>
    match c.globals.lookup name with
    | some glob => c.emit globalOp (asI32 glob.slot) (if sized then asI32 glob.arraySize else 0)
    | none => c

mutual

def compileExpr (c : Compiler) : Expr → Compiler
  | .intLiteral value _ => c.emit .loadConst value 0
  | .boolLiteral value _ => c.emit .loadConst (if value then 1 else 0) 0
  | .identifier name _ => c.emitAccess name .loadLocal .loadGlobal false
  | .binary op left right _ =>
    match op with
    | .and =>
      let c := c.compileExpr left
      let jumpShort := c.currentPc
      let c := ((c.emit .jumpIfFalse 0 0).compileExpr right).emit .loadConst 0 0
      let c := c.emitSimple .ne
      let jumpEnd := c.currentPc
      let c := c.emit .jump 0 0
      let c := (c.patch jumpShort (asI32 c.currentPc)).emit .loadConst 0 0
      c.patch jumpEnd (asI32 c.currentPc)
    | .or =>
      let c := c.compileExpr left
      let jumpShort := c.currentPc
      let c := ((c.emit .jumpIfTrue 0 0).compileExpr right).emit .loadConst 0 0
      let c := c.emitSimple .ne
      let jumpEnd := c.currentPc
      let c := c.emit .jump 0 0
      let c := (c.patch jumpShort (asI32 c.currentPc)).emit .loadConst 1 0
      c.patch jumpEnd (asI32 c.currentPc)
    | _ => ((c.compileExpr left).compileExpr right).emitSimple (binaryOpcode op)
  | .unary op operand _ => (c.compileExpr operand).emitSimple (unaryOpcode op)
  | .call name args _ =>
    -- Push arguments left-to-right
    let c := c.compileArgs args
    c.emit .call (asI32 (c.funcId name)) (asI32 args.length)
  | .arrayIndex arrayName index _ =>
    (c.compileExpr index).emitAccess arrayName .localArrayLoad .arrayLoad true
termination_by structural expr => expr

def compileArgs (c : Compiler) : List Expr → Compiler
  | [] => c
  | arg :: args => (c.compileExpr arg).compileArgs args
termination_by structural args => args

end

/-! ## Statements -/

/-- Assignment to a name. As in the source, nothing at all is compiled, not even the operands,
for a name that is neither a local nor a global. -/
def compileAssign (c : Compiler) (target : String) (indexExpr : Option Expr) (value : Expr) :
    Compiler :=
  if target ∈ c.currentLocals ∨ target ∈ c.globals then
    match indexExpr with
    | some idxExpr =>
      ((c.compileExpr idxExpr).compileExpr value).emitAccess target .localArrayStore .arrayStore
        true
    | none => (c.compileExpr value).emitAccess target .storeLocal .storeGlobal false
  else c

def compileVarDecl (c : Compiler) (name : String) (initExpr : Option Expr)
    (arraySize : Option Int32) : Compiler :=
  let c := c.declareLocal name arraySize
  match c.currentLocals.lookup name with
  | none => c
  | some loc =>
    if loc.isArray then
      (c.emit .allocArray (asI32 loc.arraySize) 0).emit .storeLocal (asI32 loc.slot) 0
    else match initExpr with
      | some init => (c.compileExpr init).emit .storeLocal (asI32 loc.slot) 0
      | none => c

mutual

def compileStmt (c : Compiler) : Stmt → Compiler
  | .varDecl _ name initExpr arraySize _ => c.compileVarDecl name initExpr arraySize
  | .assign target indexExpr value _ => c.compileAssign target indexExpr value
  | .ifStmt condition thenBody none _ =>
    let c := c.compileExpr condition
    let jumpToElse := c.currentPc
    let c := (c.emit .jumpIfFalse 0 0).compileStmts thenBody
    c.patch jumpToElse (asI32 c.currentPc)
  | .ifStmt condition thenBody (some elseBody) _ =>
    let c := c.compileExpr condition
    let jumpToElse := c.currentPc
    let c := (c.emit .jumpIfFalse 0 0).compileStmts thenBody
    let jumpToEnd := c.currentPc
    let c := c.emit .jump 0 0
    let c := (c.patch jumpToElse (asI32 c.currentPc)).compileStmts elseBody
    c.patch jumpToEnd (asI32 c.currentPc)
  | .whileStmt condition body _ =>
    let loopPc := c.currentPc
    let c := c.compileExpr condition
    let jumpToExit := c.currentPc
    let c := (c.emit .jumpIfFalse 0 0).compileStmts body
    let c := c.emit .jump (asI32 loopPc) 0
    c.patch jumpToExit (asI32 c.currentPc)
  | .returnStmt value _ => (c.compileExpr value).emitSimple .return
  | .print value _ => (c.compileExpr value).emitSimple .print
  | .exprStmt expr _ => (c.compileExpr expr).emitSimple .pop
termination_by structural stmt => stmt

def compileStmts (c : Compiler) : List Stmt → Compiler
  | [] => c
  | stmt :: stmts => (c.compileStmt stmt).compileStmts stmts
termination_by structural stmts => stmts

end

/-! ## Functions and programs -/

/-- The global initializers at the head of `main`, in source order. -/
def compileGlobalInits (c : Compiler) : List GlobalVar → Compiler
  | [] => c
  | glob :: globs =>
    match glob.initExpr with
    | some init =>
      let c := c.compileExpr init
      let slot := ((c.globals.lookup glob.name).map GlobalInfo.slot).getD 0
      (c.emit .storeGlobal (asI32 slot) 0).compileGlobalInits globs
    | none => c.compileGlobalInits globs

/-- `current_locals.retain(|_, v| v.slot < count)`. -/
def retainBelow (locals : HashMap String LocalVar) (count : Nat) : HashMap String LocalVar :=
  ⟨locals.entries.filter fun entry ↦ entry.snd.slot < count,
    (List.filter_sublist.map _).nodup locals.nodupKeys⟩

def compileFunction (c : Compiler) (func : Function) (program : Program) : Compiler :=
  let funcId := c.funcId func.name
  let entryPc := c.currentPc
  -- First pass: collect local declarations
  let c := ({ c with currentLocals := ∅, nextLocalSlot := 0 } : Compiler).allocateParams func.params
  let c := c.collectLocalDecls func.body
  let localCount := c.nextLocalSlot
  -- Reset for compilation (keep params)
  let c := { c with
    nextLocalSlot := func.params.length
    currentLocals := retainBelow c.currentLocals func.params.length }
  let c := if func.name = "main" then c.compileGlobalInits program.globals else c
  let c := c.compileStmts func.body
  -- Implicit return 0
  let c := (c.emit .loadConst 0 0).emitSimple .return
  let info : FunctionInfo := ⟨func.name, funcId, entryPc, func.params.length, localCount⟩
  { c with functions := c.functions.insert funcId info }

def compileFunctions (c : Compiler) (program : Program) : List Function → Compiler
  | [] => c
  | func :: funcs => (c.compileFunction func program).compileFunctions program funcs

/-- Compile a program to bytecode. -/
def compile (program : Program) : CompiledProgram :=
  let c := (new.collectGlobals program.globals).registerFunctions program.functions
  let c := c.compileFunctions program program.functions
  { instructions := c.instructions
    functions := c.functions
    globals := c.globals
    mainFuncId := c.mainFuncId.getD 0
    constants := [] }

end Compiler

end MiniLang
