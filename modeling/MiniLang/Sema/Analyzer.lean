import MiniLang.Syntax.Ast
import MiniLang.Bytecode.Program
import Mathlib.Data.Finset.Basic

/-!
# Semantic analyzer

Scope analysis and type checking. The analyzer never stops at an error: it records it and goes on,
with `Ty.error` as the type of an expression it could not type. A chain of scopes is the innermost
scope together with the list of the scopes around it.

## The order of the passes

Globals come first, with the slots that they take together, then the names and parameter types of
all functions, so that a function may call one that is declared later; then the initial values of
the globals, the check for `main`, and the bodies. A name is defined before its own initial value is
analysed, in a global as in a local declaration.

## Slots

Every declaration of a function takes a local slot for a name that has none yet in this function,
whatever its scope; the limit is checked at each of them, and before them for the parameters. This
count is the one that the compiler's first pass arrives at, though it is kept by a traversal of its
own.
-/

namespace MiniLang

/-- The derived `Debug` text of a type. -/
def Ty.debug : Ty → String
  | .int => "Int"
  | .bool => "Bool"
  | .void => "Void"
  | .error => "Error"

structure SemanticError where
  message : String
  span : Span
deriving DecidableEq

structure Symbol where
  name : String
  symType : Ty
  isGlobal : Bool
  isArray : Bool
  arraySize : Int32
  isFunction : Bool
  paramTypes : List Ty
deriving DecidableEq

structure Scope where
  symbols : HashMap String Symbol
  parents : List (HashMap String Symbol)

namespace Scope

def lookupChain (name : String) : List (HashMap String Symbol) → Option Symbol
  | [] => none
  | symbols :: parents => symbols.lookup name <|> lookupChain name parents

def lookup (scope : Scope) (name : String) : Option Symbol :=
  lookupChain name (scope.symbols :: scope.parents)

def insert (scope : Scope) (sym : Symbol) : Scope :=
  { scope with symbols := scope.symbols.insert sym.name sym }

def push (scope : Scope) : Scope := ⟨∅, scope.symbols :: scope.parents⟩

def pop (scope : Scope) : Scope :=
  match scope.parents with
  | [] => scope
  | symbols :: parents => ⟨symbols, parents⟩

end Scope

structure SemanticAnalyzer where
  scope : Scope
  functions : HashMap String Symbol
  errors : List SemanticError
  currentFunction : Option String
  currentLocalNames : Finset String
  currentLocalSlots : Nat

namespace SemanticAnalyzer

abbrev SemaM := StateM SemanticAnalyzer

def new : SemanticAnalyzer where
  scope := ⟨∅, []⟩
  functions := ∅
  errors := []
  currentFunction := none
  currentLocalNames := ∅
  currentLocalSlots := 0

def error (message : String) (span : Span) : SemaM Unit :=
  modify fun a ↦ { a with errors := a.errors ++ [⟨message, span⟩] }

def errorIf (p : Prop) [Decidable p] (message : String) (span : Span) : SemaM Unit :=
  if p then error message span else return ()

def pushScope : SemaM Unit := modify fun a ↦ { a with scope := a.scope.push }

def popScope : SemaM Unit := modify fun a ↦ { a with scope := a.scope.pop }

/-- The bracket `push_scope(); …; pop_scope()` around the statements of a block. -/
def block (body : SemaM Unit) : SemaM Unit := do
  pushScope
  body
  popScope

def lookup (name : String) : SemaM (Option Symbol) := return (← get).scope.lookup name

/-- `self.scope.define(sym)`; an occupied name is reported with `message`. -/
def define (sym : Symbol) (message : String) (span : Span) : SemaM Unit := do
  let a ← get
  if sym.name ∈ a.scope.symbols then error message span
  else set { a with scope := a.scope.insert sym }

/-! ## Sizes and slots -/

/-- `validate_array_size`, with the size as the `usize` that is added up. -/
def validateArraySize (name : String) (arraySize : Option Int32) (span : Span) :
    SemaM (Option Nat) := do
  match arraySize with
  | none => return none
  | some size =>
    if 0 < size then return some (asUsize size)
    else
      error s!"Array size for '{name}' must be positive" span
      return none

/-- `add_global_slots`; the running total is passed along. -/
def addGlobalSlots (name : String) (slots : Nat) (span : Span) (globalSlots : Nat) :
    SemaM Nat := do
  if slots = 0 then return globalSlots
  else match checkedAdd globalSlots slots with
    | none =>
      error "Global storage size overflow" span
      return globalSlots
    | some nextSlots =>
      errorIf (maxGlobalSlots < nextSlots)
        s!"Global storage exceeds {maxGlobalSlots} slots at '{name}' (needs {nextSlots})" span
      return nextSlots

def checkLocalSlotLimit (span : Span) : SemaM Unit := do
  let a ← get
  let functionName := a.currentFunction.getD "<unknown>"
  errorIf (maxLocalSlots < a.currentLocalSlots)
    (s!"Local storage exceeds {maxLocalSlots} slots in function '{functionName}' " ++
      s!"(needs {a.currentLocalSlots})") span

def addLocalSlot (name : String) (span : Span) : SemaM Unit := do
  let a ← get
  if name ∈ a.currentLocalNames then return ()
  else
    set { a with
      currentLocalNames := insert name a.currentLocalNames
      currentLocalSlots := min (a.currentLocalSlots + 1) usizeMax }
    checkLocalSlotLimit span

/-! ## Expressions -/

/-- A type that an error message is due for where `int` is required. -/
def notInt (t : Ty) : Prop := t ≠ .int ∧ t ≠ .error

/-- A type that an error message is due for where `int` or `bool` is required. -/
def notCondition (t : Ty) : Prop := t ≠ .int ∧ t ≠ .bool ∧ t ≠ .error

instance (t : Ty) : Decidable (notInt t) := inferInstanceAs (Decidable (_ ∧ _))

instance (t : Ty) : Decidable (notCondition t) := inferInstanceAs (Decidable (_ ∧ _))

def analyzeIdentifier (name : String) (span : Span) : SemaM Ty := do
  match ← lookup name with
  | none => do
    error s!"Undefined variable: {name}" span
    return .error
  | some sym =>
    if sym.isFunction then
      error s!"Cannot use function as value: {name}" span
      return .error
    else if sym.isArray then
      error s!"Cannot use array without index: {name}" span
      return .error
    else return sym.symType

def analyzeBinaryOp (op : BinaryOp) (leftType rightType : Ty) (span : Span) : SemaM Ty := do
  match op with
  | .add | .sub | .mul | .div => do
    errorIf (notInt leftType) "Arithmetic operator requires int operands" span
    errorIf (notInt rightType) "Arithmetic operator requires int operands" span
    return .int
  | .lt | .gt | .le | .ge => do
    errorIf (notInt leftType) "Comparison operator requires int operands" span
    errorIf (notInt rightType) "Comparison operator requires int operands" span
    return .bool
  | .eq | .ne => do
    errorIf (leftType ≠ rightType ∧ leftType ≠ .error ∧ rightType ≠ .error)
      "Equality operator requires same types" span
    return .bool
  | .and | .or => do
    errorIf (notCondition leftType) "Logical operator requires int or bool" span
    errorIf (notCondition rightType) "Logical operator requires int or bool" span
    return .bool

def analyzeUnaryOp (op : UnaryOp) (operandType : Ty) (span : Span) : SemaM Ty := do
  match op with
  | .neg => do
    errorIf (notInt operandType) "Negation requires int operand" span
    return .int
  | .not => do
    errorIf (notCondition operandType) "Logical not requires int or bool" span
    return .bool

mutual

def analyzeExpr : Expr → SemaM Ty
  | .intLiteral _ _ => return .int
  | .boolLiteral _ _ => return .bool
  | .identifier name span => analyzeIdentifier name span
  | .binary op left right span => do
    let leftType ← analyzeExpr left
    let rightType ← analyzeExpr right
    analyzeBinaryOp op leftType rightType span
  | .unary op operand span => do
    let operandType ← analyzeExpr operand
    analyzeUnaryOp op operandType span
  | .call name args span => do
    match (← get).functions.lookup name with
    | none => do
      error s!"Undefined function: {name}" span
      return .error
    | some func =>
      if args.length ≠ func.paramTypes.length then
        error (s!"Wrong number of arguments: expected {func.paramTypes.length}, " ++
          s!"got {args.length}") span
        return .int
      else
        analyzeArgs 0 args func.paramTypes span
        return .int
  | .arrayIndex arrayName index span => do
    match ← lookup arrayName with
    | none => do
      error s!"Undefined variable: {arrayName}" span
      return .error
    | some sym =>
      if ¬sym.isArray then
        error s!"Cannot index non-array: {arrayName}" span
        return .error
      else
        let indexType ← analyzeExpr index
        errorIf (notInt indexType) "Array index must be int" span
        return sym.symType
termination_by structural expr => expr

/-- The loop over the arguments of a call, `i` counting from 0. -/
def analyzeArgs (i : Nat) : List Expr → List Ty → Span → SemaM Unit
  | arg :: args, expectedType :: expectedTypes, span => do
    let argType ← analyzeExpr arg
    errorIf (argType ≠ expectedType ∧ argType ≠ .error)
      (s!"Argument {i + 1} type mismatch: expected {expectedType.debug}, " ++
        s!"got {argType.debug}") span
    analyzeArgs (i + 1) args expectedTypes span
  | _, _, _ => return ()
termination_by structural args => args

end

/-! ## Statements -/

/-- The check of an initializer or an assigned value against the declared type. -/
def checkAssignable (valueType declared : Ty) (span : Span) : SemaM Unit :=
  errorIf (valueType ≠ declared ∧ valueType ≠ .error)
    s!"Type mismatch: cannot assign {valueType.debug} to {declared.debug}" span

def analyzeInit (init : Option Expr) (declared : Ty) (span : Span) : SemaM Unit := do
  match init with
  | none => return ()
  | some init =>
    let initType ← analyzeExpr init
    checkAssignable initType declared span

def analyzeVarDecl (varType : Ty) (name : String) (initExpr : Option Expr)
    (arraySize : Option Int32) (span : Span) : SemaM Unit := do
  if (← lookup name).isSome then error s!"Variable shadows existing symbol: {name}" span
  else
    let checkedArraySize ← validateArraySize name arraySize span
    addLocalSlot name span
    define ⟨name, varType, false, arraySize.isSome,
      (checkedArraySize.map Int32.ofNat).getD 0, false, []⟩ s!"Duplicate variable: {name}" span
    analyzeInit initExpr varType span

def analyzeValue (value : Expr) (declared : Ty) (span : Span) : SemaM Unit := do
  let valueType ← analyzeExpr value
  checkAssignable valueType declared span

/-- An expression whose type is reported with `message` unless it is `int`. -/
def analyzeInt (expr : Expr) (message : String) (span : Span) : SemaM Unit := do
  let exprType ← analyzeExpr expr
  errorIf (notInt exprType) message span

def analyzeAssign (target : String) (indexExpr : Option Expr) (value : Expr) (span : Span) :
    SemaM Unit := do
  match ← lookup target with
  | none => error s!"Undefined variable: {target}" span
  | some sym =>
    if sym.isFunction then error s!"Cannot assign to function: {target}" span
    else match indexExpr with
      | some idx => do
        analyzeInt idx "Array index must be an integer" span
        errorIf (¬sym.isArray) s!"Cannot index non-array: {target}" span
        analyzeValue value sym.symType span
      | none =>
        if sym.isArray then error s!"Cannot assign to array without index: {target}" span
        else analyzeValue value sym.symType span

def analyzeCondition (condition : Expr) (span : Span) : SemaM Unit := do
  let condType ← analyzeExpr condition
  errorIf (notCondition condType) "Condition must be int or bool" span

mutual

def analyzeStmt : Stmt → SemaM Unit
  | .varDecl varType name initExpr arraySize span =>
    analyzeVarDecl varType name initExpr arraySize span
  | .assign target indexExpr value span => analyzeAssign target indexExpr value span
  | .ifStmt condition thenBody none span => do
    analyzeCondition condition span
    block (analyzeStmts thenBody)
  | .ifStmt condition thenBody (some elseBody) span => do
    analyzeCondition condition span
    block (analyzeStmts thenBody)
    block (analyzeStmts elseBody)
  | .whileStmt condition body span => do
    analyzeCondition condition span
    block (analyzeStmts body)
  | .returnStmt value span => analyzeInt value "Return value must be int" span
  | .print value _ => do
    let _ ← analyzeExpr value
    return ()
  | .exprStmt expr _ => do
    let _ ← analyzeExpr expr
    return ()
termination_by structural stmt => stmt

def analyzeStmts : List Stmt → SemaM Unit
  | [] => return ()
  | stmt :: stmts => do
    analyzeStmt stmt
    analyzeStmts stmts
termination_by structural stmts => stmts

end

/-! ## Functions and programs -/

def addParams : List Param → SemaM Unit
  | [] => return ()
  | param :: params => do
    if (← lookup param.name).isSome then
      error s!"Parameter shadows existing symbol: {param.name}" param.span
    else
      define ⟨param.name, param.paramType, false, false, 0, false, []⟩
        s!"Duplicate parameter: {param.name}" param.span
    addParams params

def analyzeFunction (func : Function) : SemaM Unit := do
  modify fun a ↦ { a with
    currentFunction := some func.name
    currentLocalNames := (func.params.map Param.name).toFinset
    currentLocalSlots := func.params.length }
  checkLocalSlotLimit func.span
  pushScope
  addParams func.params
  analyzeStmts func.body
  popScope
  modify fun a ↦ { a with currentFunction := none }

/-- The first loop of `collect_declarations`, over the globals. -/
def collectGlobals (globalSlots : Nat) : List GlobalVar → SemaM Unit
  | [] => return ()
  | glob :: globs => do
    let checkedArraySize ← validateArraySize glob.name glob.arraySize glob.span
    let slotCount := if glob.arraySize.isSome then checkedArraySize.getD 0 else 1
    let globalSlots ← addGlobalSlots glob.name slotCount glob.span globalSlots
    define ⟨glob.name, glob.varType, true, glob.arraySize.isSome,
      (checkedArraySize.map Int32.ofNat).getD 0, false, []⟩
      s!"Duplicate global variable: {glob.name}" glob.span
    collectGlobals globalSlots globs

def collectFunction (func : Function) : SemaM Unit := do
  let sym : Symbol :=
    ⟨func.name, .int, false, false, 0, true, func.params.map Param.paramType⟩
  let a ← get
  if func.name ∈ a.functions then error s!"Duplicate function: {func.name}" func.span
  else
    set { a with functions := a.functions.insert func.name sym }
    define sym s!"Duplicate top-level symbol: {func.name}" func.span

/-- The second loop of `collect_declarations`, over the functions. -/
def collectFunctions : List Function → SemaM Unit
  | [] => return ()
  | func :: funcs => do
    collectFunction func
    collectFunctions funcs

/-- The third loop of `collect_declarations`, over the global initializers. -/
def checkGlobalInits : List GlobalVar → SemaM Unit
  | [] => return ()
  | glob :: globs => do
    analyzeInit glob.initExpr glob.varType glob.span
    checkGlobalInits globs

def collectDeclarations (program : Program) : SemaM Unit := do
  collectGlobals 0 program.globals
  collectFunctions program.functions
  checkGlobalInits program.globals

def analyzeFunctions : List Function → SemaM Unit
  | [] => return ()
  | func :: funcs => do
    analyzeFunction func
    analyzeFunctions funcs

def checkMain : SemaM Unit := do
  match (← get).functions.lookup "main" with
  | none => error "Program must define a 'main' function" .default
  | some mainFunc =>
    errorIf (mainFunc.paramTypes ≠ []) "'main' function must take no parameters" .default

def analyzeProgram (program : Program) : SemaM Unit := do
  collectDeclarations program
  checkMain
  analyzeFunctions program.functions

/-- `SemanticAnalyzer::new().analyze(program)`. -/
def analyze (program : Program) : Except (List SemanticError) Unit :=
  let errors := ((analyzeProgram program).run new).2.errors
  if errors = [] then .ok () else .error errors

end SemanticAnalyzer

end MiniLang
