import MiniLang.Syntax.Ast
import MiniLang.Machine.Vm

/-!
# The source-level oracle

An interpreter of the syntax tree, written independently of the compiler and of the machines. It
looks variables up by name and charges one tick for every statement, expression and call. Calls and
loops run on fuel here; a run whose fuel exceeds its limit of ticks never notices.

## Variants

The interpreter is parametrized by its limits and by the order in which an assignment to an element
checks its index, for these are what the compiled code does otherwise. `source` are the choices of
the source. A variant may also refuse to go on where two choices could be told apart; as long as it
does not refuse, it does what either of them does.
-/

namespace MiniLang

mutual

/-- The functions that an expression calls. -/
def Expr.callees : Expr → List String
  | .intLiteral .. => []
  | .boolLiteral .. => []
  | .identifier .. => []
  | .binary _ left right _ => left.callees ++ right.callees
  | .unary _ operand _ => operand.callees
  | .call name args _ => name :: calleesArgs args
  | .arrayIndex _ index _ => index.callees
termination_by structural e => e

def calleesArgs : List Expr → List String
  | [] => []
  | arg :: args => arg.callees ++ calleesArgs args
termination_by structural args => args

end

namespace AstOracle

/-- When an element assignment traps at a negative index: before it evaluates the value, or after.
It may also refuse to go on: where the value would show that it has been evaluated, or, to `guard`
the call depth, where the value calls functions. -/
inductive IndexCheck
  | early
  | late
  | refuse
  | guard
deriving DecidableEq

/-- How many frames there may be, and whether a call beyond them is refused or overflows the call
stack. -/
structure FrameLimit where
  frames : Nat
  refuses : Bool

/-- The variants of the interpreter. -/
structure Rules where
  maxCycles : Nat
  /-- The limit of frames while `main` runs. -/
  frameLimit : FrameLimit
  /-- The limit of frames while the globals are initialized. -/
  initFrameLimit : FrameLimit
  indexCheck : IndexCheck

/-- The choices of the source. -/
def source : Rules :=
  ⟨MiniLang.maxCycles, ⟨MiniLang.maxFrames, false⟩, ⟨MiniLang.maxFrames, false⟩, .early⟩

inductive Slot
  | scalar (value : Option Int)
  | array (values : List Int)
deriving DecidableEq

/-- Scopes are listed from the innermost. -/
structure Frame where
  scopes : List (HashMap String Slot)

inductive Control
  | continue
  | return (value : Int)
deriving DecidableEq

/-- Why an evaluation ends early. -/
inductive Stop
  | trap (code : TrapCode) (message : String)
  | panic
  | refused
  | outOfFuel
deriving DecidableEq

/-- What a call beyond the limit ends in. -/
def FrameLimit.beyond (limit : FrameLimit) : Stop :=
  if limit.refuses then .refused
  else .trap .stackOverflow s!"Call stack overflow (max {limit.frames} frames)"

end AstOracle

/-- The state of the interpreter; frames are listed from the innermost. -/
structure AstOracle where
  globals : HashMap String AstOracle.Slot
  frames : List AstOracle.Frame
  output : List String
  cycles : Nat

structure OracleOutcome where
  success : Bool
  returnValue : Int
  trapCode : TrapCode
  trapMessage : String
  output : List String
deriving DecidableEq

namespace AstOracle

abbrev OracleM := EStateM Stop AstOracle

def trap {α : Type} (code : TrapCode) (message : String) : OracleM α :=
  throw (.trap code message)

/-- The initial slot of a global. -/
def globalSlot (arraySize : Option Int32) : Slot :=
  match arraySize with
  | some size => .array (List.replicate (asUsize size) 0)
  | none => .scalar (some 0)

def collectGlobals (globals : HashMap String Slot) : List GlobalVar → HashMap String Slot
  | [] => globals
  | glob :: globs => collectGlobals (globals.insert glob.name (globalSlot glob.arraySize)) globs

def collectFunctions (functions : HashMap String Function) :
    List Function → HashMap String Function
  | [] => functions
  | func :: funcs => collectFunctions (functions.insert func.name func) funcs

def new (program : Program) : AstOracle where
  globals := collectGlobals ∅ program.globals
  frames := []
  output := []
  cycles := 0

/-! ## Variables -/

def lookupScopes (name : String) : List (HashMap String Slot) → Option Slot
  | [] => none
  | scope :: scopes => scope.lookup name <|> lookupScopes name scopes

def lookupSlot (oracle : AstOracle) (name : String) : Option Slot :=
  (match oracle.frames with
    | [] => none
    | frame :: _ => lookupScopes name frame.scopes) <|> oracle.globals.lookup name

/-- Replace the slot that a lookup in the scopes finds. -/
def replaceScopes (name : String) (slot : Slot) :
    List (HashMap String Slot) → List (HashMap String Slot)
  | [] => []
  | scope :: scopes =>
    if name ∈ scope then scope.insert name slot :: scopes
    else scope :: replaceScopes name slot scopes

/-- `*lookup_slot_mut(name) = slot` for a name that has a slot. -/
def replaceSlot (oracle : AstOracle) (name : String) (slot : Slot) : AstOracle :=
  match oracle.frames with
  | [] => { oracle with globals := oracle.globals.insert name slot }
  | frame :: frames =>
    if (lookupScopes name frame.scopes).isSome then
      { oracle with frames := ⟨replaceScopes name slot frame.scopes⟩ :: frames }
    else { oracle with globals := oracle.globals.insert name slot }

def insertInCurrentScope (name : String) (slot : Slot) : OracleM Unit := do
  match (← get).frames with
  | [] => trap .invalidInstruction "No active call frame"
  | ⟨[]⟩ :: _ => trap .invalidInstruction "No active scope"
  | ⟨scope :: scopes⟩ :: frames =>
    modify fun oracle ↦ { oracle with frames := ⟨scope.insert name slot :: scopes⟩ :: frames }

def readScalar (name : String) : OracleM Int := do
  match (← get).lookupSlot name with
  | some (.scalar (some value)) => return value
  | some (.scalar none) => trap .undefinedLocal s!"Undefined local {name}"
  | some (.array _) => trap .invalidInstruction s!"Cannot use array {name} without index"
  | none => trap .invalidInstruction s!"Undefined variable {name}"

def readArray (name : String) (index : Nat) : OracleM Int := do
  match (← get).lookupSlot name with
  | some (.array values) =>
    match values[index]? with
    | some value => return value
    | none =>
      trap .arrayOutOfBounds s!"Array index {index} out of bounds (size {values.length})"
  | some (.scalar _) => trap .invalidInstruction s!"Cannot index non-array {name}"
  | none => trap .invalidInstruction s!"Undefined variable {name}"

def assignScalar (name : String) (value : Int) : OracleM Unit := do
  match (← get).lookupSlot name with
  | some (.scalar _) =>
    modify fun oracle ↦ oracle.replaceSlot name (.scalar (some (normalizeI32 value)))
  | some (.array _) => trap .invalidInstruction s!"Cannot assign array {name} without index"
  | none => trap .invalidInstruction s!"Undefined variable {name}"

def assignGlobalScalar (name : String) (value : Int) : OracleM Unit := do
  match (← get).globals.lookup name with
  | some (.scalar _) =>
    modify fun oracle ↦ { oracle with
      globals := oracle.globals.insert name (.scalar (some (normalizeI32 value))) }
  | some (.array _) => trap .invalidInstruction s!"Cannot initialize array {name} as scalar"
  | none => trap .invalidInstruction s!"Undefined global {name}"

def assignArray (name : String) (index : Nat) (value : Int) : OracleM Unit := do
  match (← get).lookupSlot name with
  | some (.array values) =>
    if index < values.length then
      modify fun oracle ↦
        oracle.replaceSlot name (.array (values.set index (normalizeI32 value)))
    else trap .arrayOutOfBounds s!"Array index {index} out of bounds (size {values.length})"
  | some (.scalar _) => trap .invalidInstruction s!"Cannot index non-array {name}"
  | none => trap .invalidInstruction s!"Undefined variable {name}"

def declareOrUpdate (name : String) (slot : Slot) : OracleM Unit := do
  if ((← get).lookupSlot name).isSome then modify fun oracle ↦ oracle.replaceSlot name slot
  else insertInCurrentScope name slot

def checkedArrayIndex (rawIndex : Int) : OracleM Nat :=
  if rawIndex < 0 then trap .arrayOutOfBounds s!"Array index {rawIndex} out of bounds"
  else return rawIndex.toNat

/-! ## Operators -/

/-- `eval_binary`; `&&` and `||` are short-circuited before. -/
def evalBinary (op : BinaryOp) (left right : Int) : OracleM Int :=
  match op with
  | .add => return normalizeI32 (wrapI64 (left + right))
  | .sub => return normalizeI32 (wrapI64 (left - right))
  | .mul => return normalizeI32 (wrapI64 (left * right))
  | .div =>
    if right = 0 then trap .divideByZero "Division by zero"
    else if left = i64Min ∧ right = -1 then throw .panic
    else return normalizeI32 (left.tdiv right)
  | .eq => return flag (left = right)
  | .ne => return flag (left ≠ right)
  | .lt => return flag (left < right)
  | .gt => return flag (left > right)
  | .le => return flag (left ≤ right)
  | .ge => return flag (left ≥ right)
  | .and | .or => throw .panic

def evalUnary (op : UnaryOp) (operand : Int) : OracleM Int :=
  match op with
  | .neg => if operand = i64Min then throw .panic else return normalizeI32 (-operand)
  | .not => return flag (operand = 0)

/-! ## Expressions -/

section

variable (rules : Rules)

def tick : OracleM Unit := do
  modify fun oracle ↦ { oracle with cycles := oracle.cycles + 1 }
  if (← get).cycles > rules.maxCycles then
    trap .cycleLimit s!"Cycle limit exceeded ({rules.maxCycles})"

-- how a function is called
variable (call : String → List Int → OracleM Int)

mutual

def evalExpr : Expr → OracleM Int
  | .intLiteral value _ => do
    tick rules
    return value.toInt
  | .boolLiteral value _ => do
    tick rules
    return flag (value = true)
  | .identifier name _ => do
    tick rules
    readScalar name
  | .binary op left right _ => do
    tick rules
    match op with
    | .and =>
      if (← evalExpr left) = 0 then return 0
      else return flag ((← evalExpr right) ≠ 0)
    | .or =>
      if (← evalExpr left) ≠ 0 then return 1
      else return flag ((← evalExpr right) ≠ 0)
    | op =>
      let left ← evalExpr left
      let right ← evalExpr right
      evalBinary op left right
  | .unary op operand _ => do
    tick rules
    evalUnary op (← evalExpr operand)
  | .call name args _ => do
    tick rules
    call name (← evalArgs args)
  | .arrayIndex arrayName index _ => do
    tick rules
    readArray arrayName (← checkedArrayIndex (← evalExpr index))
termination_by structural expr => expr

/-- The arguments of a call, from the left. -/
def evalArgs : List Expr → OracleM (List Int)
  | [] => return []
  | arg :: args => do
    let value ← evalExpr arg
    let values ← evalArgs args
    return value :: values
termination_by structural args => args

end

/-! ## Statements -/

/-- It shows that an assignment at a negative index ends with `code` in the state `oracle'`, and not
at once with an index out of bounds. -/
def Shows (code : TrapCode) (oracle oracle' : AstOracle) : Prop :=
  ¬(code = .arrayOutOfBounds ∧ oracle'.output = oracle.output)

instance (code : TrapCode) (oracle oracle' : AstOracle) : Decidable (Shows code oracle oracle') :=
  inferInstanceAs (Decidable (¬(code = .arrayOutOfBounds ∧ oracle'.output = oracle.output)))

/-- Refuse to go on where it would show that `x` has been run first. -/
def refuseShown (x : OracleM Int) : OracleM Unit := fun oracle ↦
  match x.run oracle with
  | .ok _ oracle' =>
    if Shows .arrayOutOfBounds oracle oracle' then .error .refused oracle else .ok () oracle
  | .error (.trap code message) oracle' =>
    if code = .cycleLimit then .error (.trap code message) oracle'
    else if Shows code oracle oracle' then .error .refused oracle
    else .ok () oracle
  | .error .refused _ => .error .refused oracle
  | .error stop oracle' => .error stop oracle'

/-- An assignment to the element of an array, of a value that calls functions or does not. -/
def assignElement (check : IndexCheck) (target : String) (calls : Bool)
    (index value : OracleM Int) : OracleM Unit := do
  match check with
  | .early =>
    let index ← checkedArrayIndex (← index)
    let value ← value
    assignArray target index value
  | .late =>
    let rawIndex ← index
    let value ← value
    assignArray target (← checkedArrayIndex rawIndex) value
  | .refuse =>
    let rawIndex ← index
    if rawIndex < 0 then refuseShown value
    let index ← checkedArrayIndex rawIndex
    let value ← value
    assignArray target index value
  | .guard =>
    let rawIndex ← index
    if rawIndex < 0 ∧ calls then throw .refused
    let index ← checkedArrayIndex rawIndex
    let value ← value
    assignArray target index value

def execVarDecl (name : String) (initExpr : Option Expr) (arraySize : Option Int32) :
    OracleM Unit := do
  match arraySize, initExpr with
  | some size, _ => declareOrUpdate name (.array (List.replicate (asUsize size) 0))
  | none, some expr => do
    if ((← get).lookupSlot name).isNone then insertInCurrentScope name (.scalar none)
    assignScalar name (← evalExpr rules call expr)
  | none, none => do
    if ((← get).lookupSlot name).isNone then insertInCurrentScope name (.scalar none)

def execAssign (target : String) (indexExpr : Option Expr) (value : Expr) : OracleM Unit := do
  match indexExpr with
  | some indexExpr =>
    assignElement rules.indexCheck target (!value.callees.isEmpty) (evalExpr rules call indexExpr)
      (evalExpr rules call value)
  | none => assignScalar target (← evalExpr rules call value)

/-- The loop of a `while` statement, for at most `fuel` evaluations of its condition. -/
def loop (condition : OracleM Int) (body : OracleM Control) : Nat → OracleM Control
  | 0 => throw .outOfFuel
  | fuel + 1 => do
    if (← condition) ≠ 0 then
      match ← body with
      | .continue => loop condition body fuel
      | .return value => return .return value
    else return .continue

variable (fuel : Nat)

mutual

def execStmt : Stmt → OracleM Control
  | .varDecl _ name initExpr arraySize _ => do
    tick rules
    execVarDecl rules call name initExpr arraySize
    return .continue
  | .assign target indexExpr value _ => do
    tick rules
    execAssign rules call target indexExpr value
    return .continue
  | .ifStmt condition thenBody none _ => do
    tick rules
    if (← evalExpr rules call condition) ≠ 0 then execBlock thenBody else return .continue
  | .ifStmt condition thenBody (some elseBody) _ => do
    tick rules
    if (← evalExpr rules call condition) ≠ 0 then execBlock thenBody else execBlock elseBody
  | .whileStmt condition body _ => do
    tick rules
    loop (evalExpr rules call condition) (execBlock body) fuel
  | .returnStmt value _ => do
    tick rules
    return .return (← evalExpr rules call value)
  | .print value _ => do
    tick rules
    let value ← evalExpr rules call value
    modify fun oracle ↦ { oracle with output := oracle.output ++ [s!"OUTPUT: {value}"] }
    return .continue
  | .exprStmt expr _ => do
    tick rules
    let _ ← evalExpr rules call expr
    return .continue
termination_by structural stmt => stmt

def execBlock : List Stmt → OracleM Control
  | [] => return .continue
  | stmt :: stmts => do
    match ← execStmt stmt with
    | .continue => execBlock stmts
    | .return value => return .return value
termination_by structural stmts => stmts

end

end

/-! ## Functions and programs -/

section

variable (rules : Rules) (program : Program)

/-- The scope of the parameters. -/
def rootScope (scope : HashMap String Slot) : List Param → List Int → HashMap String Slot
  | param :: params, value :: values =>
    rootScope (scope.insert param.name (.scalar (some (normalizeI32 value)))) params values
  | _, _ => scope

/-- The value that a function returns when its body ends with `control`. -/
def Control.value : Control → Int
  | .return value => value
  | .continue => 0

/-- Call a function; `fuel` bounds the depth of calls and the iterations of each loop. -/
def callFunction : Nat → String → List Int → OracleM Int
  | 0, _, _ => throw .outOfFuel
  | fuel + 1, name, args => do
    tick rules
    if (← get).frames.length ≥ rules.frameLimit.frames then throw rules.frameLimit.beyond
    else match (collectFunctions ∅ program.functions).lookup name with
      | none => trap .undefinedFunction s!"Undefined function {name}"
      | some function =>
        if args.length ≠ function.params.length then
          trap .invalidInstruction
            s!"Call has {args.length} arguments but function {name} expects {function.params.length}"
        else
          modify fun oracle ↦ { oracle with
            frames := ⟨[rootScope ∅ function.params args]⟩ :: oracle.frames }
          let result ← execBlock rules (callFunction fuel) fuel function.body
          modify fun oracle ↦ { oracle with frames := oracle.frames.tail }
          return normalizeI32 result.value

def initializeGlobals (fuel : Nat) : List GlobalVar → OracleM Unit
  | [] => return ()
  | glob :: globs => do
    match glob.initExpr with
    | some initExpr =>
      assignGlobalScalar glob.name (← evalExpr rules (callFunction rules program fuel) initExpr)
    | none => pure ()
    initializeGlobals fuel globs

/-- Initialize the globals, then call `main`. -/
def execute (fuel : Nat) : OracleM Int := do
  initializeGlobals { rules with frameLimit := rules.initFrameLimit } program fuel program.globals
  callFunction rules program fuel "main" []

/-- The outcome of a run; there is none where the interpreter does not end as the source does. -/
def outcome : EStateM.Result Stop AstOracle Int → Option OracleOutcome
  | .ok value oracle => some ⟨true, value, .none, "", oracle.output⟩
  | .error (.trap code message) oracle => some ⟨false, 0, code, message, oracle.output⟩
  | .error _ _ => none

/-- `AstOracle::new(program).run()`, with fuel for as many calls and iterations as there are
ticks. -/
def runWith : Option OracleOutcome :=
  outcome ((execute rules program (rules.maxCycles + 1)).run (new program))

end

/-- `run_ast_oracle` -/
def run (program : Program) : Option OracleOutcome := runWith source program

end AstOracle

end MiniLang
