import MiniLang.Bytecode.Program
import MiniLang.Lib.StateExcept

/-!
# Bytecode verifier

A dataflow analysis per function: the abstract state at an instruction is the depth of the operand
stack and the set of definitely initialised locals. Diagnostics (errors and possible traps) are
threaded through as state; an instruction that cannot be stepped stops its own successors only.

## The worklist

An instruction enters the worklist when it is reached for the first time, and again whenever a local
stops being definitely initialised there. Depths never change: two different ones at an instruction
are an error. So every instruction is visited at most once more than the function has locals, which
gives the fuel of the loop; that this fuel suffices in every order of visits is proved in
`Bytecode.FlowSolution`.

## The rest of the report

The other checks are passes over lists. Entry points cut the code into one range for each function,
globals claim their slots, and the call edges that the loops record are searched from `main` for the
longest chain of calls. Eligibility for the compiled backend is read off the opcodes and the limits.
A report is valid when none of these passes has left an error.
-/

namespace MiniLang

/-- One verification failure. -/
structure VerificationError where
  pc : Option Nat
  message : String
deriving DecidableEq

/-- Backend eligibility result with an optional reason when rejected. -/
structure BackendStatus where
  eligible : Bool
  reason : Option String
deriving DecidableEq

def BackendStatus.yes : BackendStatus := ⟨true, none⟩

def BackendStatus.no (reason : String) : BackendStatus := ⟨false, some reason⟩

structure BackendEligibility where
  vm : BackendStatus
  gcVm : BackendStatus
  optimizedVm : BackendStatus
  jit : BackendStatus
deriving DecidableEq

/-- Per-function verifier summary. -/
structure FunctionVerification where
  id : Nat
  name : String
  entryPc : Nat
  endPc : Nat
  reachableInstructions : Nat
  maxStackDepth : Nat
deriving DecidableEq

/-- Full verifier output. -/
structure VerificationReport where
  valid : Bool
  errors : List VerificationError
  functions : List FunctionVerification
  possibleTraps : List TrapCode
  maxStackDepth : Nat
  maxFrameDepth : Option Nat
  backendEligibility : BackendEligibility
deriving DecidableEq

namespace Verifier

structure AbstractState where
  stackDepth : Nat
  initializedLocals : List Bool
deriving DecidableEq

/-- The instructions `start..stop` of one function. -/
structure FunctionRange where
  id : Nat
  info : FunctionInfo
  start : Nat
  stop : Nat
deriving DecidableEq

/-- The errors and possible traps found so far. -/
structure Diagnostics where
  errors : List VerificationError
  possibleTraps : List TrapCode

structure Step where
  state : AbstractState
  successors : List Nat
  callEdges : List (Nat × Nat)

/-- A check that may report and give up. -/
abbrev CheckM := EStateM Unit Diagnostics

def pushTrap (traps : List TrapCode) (trap : TrapCode) : List TrapCode :=
  if trap ∈ traps then traps else traps ++ [trap]

def pushError (errors : List VerificationError) (pc : Option Nat) (message : String) :
    List VerificationError :=
  errors ++ [⟨pc, message⟩]

/-- Report an error and give up on the instruction. -/
def fail {α : Type} (pc : Nat) (message : String) : CheckM α := do
  modify fun d ↦ { d with errors := pushError d.errors (some pc) message }
  throw ()

def possibleTrap (trap : TrapCode) : CheckM Unit :=
  modify fun d ↦ { d with possibleTraps := pushTrap d.possibleTraps trap }

def pcInRange (range : FunctionRange) (pc : Nat) : Bool := range.start ≤ pc && pc < range.stop

/-! ## Checks on operands -/

def popStack (pc : Nat) (state : AbstractState) (count : Nat) : CheckM AbstractState :=
  if state.stackDepth < count then
    fail pc s!"stack underflow: instruction needs {count} value(s), stack has {state.stackDepth}"
  else return { state with stackDepth := state.stackDepth - count }

def localSlot (range : FunctionRange) (pc : Nat) (rawSlot : Int32) : CheckM Nat :=
  if rawSlot < 0 then fail pc s!"negative local slot {rawSlot.toInt}"
  else if asUsize rawSlot ≥ range.info.localCount then
    fail pc
      s!"local slot {asUsize rawSlot} is outside function '{range.info.name}' local count {range.info.localCount}"
  else return asUsize rawSlot

def globalSlot (pc : Nat) (rawSlot : Int32) : CheckM Nat :=
  if rawSlot < 0 then fail pc s!"negative global slot {rawSlot.toInt}"
  else if asUsize rawSlot ≥ maxGlobalSlots then
    fail pc s!"global slot {asUsize rawSlot} exceeds limit {maxGlobalSlots}"
  else return asUsize rawSlot

def arraySize (pc : Nat) (rawSize : Int32) : CheckM Nat :=
  if rawSize ≤ 0 then fail pc s!"array size must be positive, got {rawSize.toInt}"
  else return asUsize rawSize

def globalArrayRange (pc : Nat) (rawSlot rawSize : Int32) : CheckM (Nat × Nat) := do
  let slot ← globalSlot pc rawSlot
  let size ← arraySize pc rawSize
  let last := min (slot + size) usizeMax
  if last > maxGlobalSlots then
    fail pc s!"global array range {slot}..{last} exceeds limit {maxGlobalSlots}"
  else return (slot, size)

def jumpTarget (range : FunctionRange) (pc : Nat) (rawTarget : Int32) : CheckM Nat :=
  if rawTarget < 0 then fail pc s!"negative jump target {rawTarget.toInt}"
  else if pcInRange range (asUsize rawTarget) then return asUsize rawTarget
  else
    fail pc
      s!"jump target {asUsize rawTarget} is outside function '{range.info.name}' range {range.start}..{range.stop}"

/-! ## One instruction -/

def push (state : AbstractState) : AbstractState :=
  { state with stackDepth := state.stackDepth + 1 }

/-- `if !state.initialized_locals[slot] { push_trap(UndefinedLocal) }`. -/
def checkInitialized (state : AbstractState) (slot : Nat) : CheckM Unit :=
  if state.initializedLocals[slot]? = some true then return () else possibleTrap .undefinedLocal

/-- Fall through to the next instruction. -/
def next (pc : Nat) (state : AbstractState) : Step := ⟨state, [pc + 1], []⟩

def stepInstruction (program : CompiledProgram) (range : FunctionRange) (pc : Nat)
    (instr : Instruction) (state : AbstractState) : CheckM Step :=
  match instr.opcode with
  | .loadConst => return next pc (push state)
  | .loadLocal => do
    let slot ← localSlot range pc instr.arg1
    checkInitialized state slot
    return next pc (push state)
  | .storeLocal => do
    let state ← popStack pc state 1
    let slot ← localSlot range pc instr.arg1
    return next pc { state with initializedLocals := state.initializedLocals.set slot true }
  | .loadGlobal => do
    let _ ← globalSlot pc instr.arg1
    return next pc (push state)
  | .storeGlobal => do
    let state ← popStack pc state 1
    let _ ← globalSlot pc instr.arg1
    return next pc state
  | .add | .sub | .mul | .eq | .ne | .lt | .gt | .le | .ge | .and | .or => do
    let state ← popStack pc state 2
    return next pc (push state)
  | .div => do
    let state ← popStack pc state 2
    possibleTrap .divideByZero
    return next pc (push state)
  | .neg | .not => do
    let state ← popStack pc state 1
    return next pc (push state)
  | .jump => do
    let target ← jumpTarget range pc instr.arg1
    if target ≤ pc then possibleTrap .cycleLimit
    return ⟨state, [target], []⟩
  | .jumpIfFalse | .jumpIfTrue => do
    let state ← popStack pc state 1
    let target ← jumpTarget range pc instr.arg1
    if target ≤ pc then possibleTrap .cycleLimit
    return ⟨state, [target, pc + 1], []⟩
  | .call => do
    if instr.arg1 < 0 then fail pc s!"negative function id {instr.arg1.toInt}"
    else if instr.arg2 < 0 then fail pc s!"negative call argument count {instr.arg2.toInt}"
    else
      let calleeId := asUsize instr.arg1
      let argc := asUsize instr.arg2
      match program.functions.lookup calleeId with
      | none => fail pc s!"call to undefined function id {calleeId}"
      | some callee =>
        if argc ≠ callee.paramCount then
          fail pc s!"call to '{callee.name}' has {argc} args but expects {callee.paramCount}"
        else
          let state ← popStack pc state argc
          return ⟨push state, [pc + 1], [(range.id, calleeId)]⟩
  | .return => do
    let state ← popStack pc state 1
    return ⟨state, [], []⟩
  | .arrayLoad => do
    let _ ← globalArrayRange pc instr.arg1 instr.arg2
    let state ← popStack pc state 1
    possibleTrap .arrayOutOfBounds
    return next pc (push state)
  | .arrayStore => do
    let _ ← globalArrayRange pc instr.arg1 instr.arg2
    let state ← popStack pc state 2
    possibleTrap .arrayOutOfBounds
    return next pc state
  | .localArrayLoad => do
    let _ ← arraySize pc instr.arg2
    let slot ← localSlot range pc instr.arg1
    checkInitialized state slot
    let state ← popStack pc state 1
    possibleTrap .arrayOutOfBounds
    return next pc (push state)
  | .localArrayStore => do
    let _ ← arraySize pc instr.arg2
    let slot ← localSlot range pc instr.arg1
    checkInitialized state slot
    let state ← popStack pc state 2
    possibleTrap .arrayOutOfBounds
    return next pc state
  | .arrayNew | .allocArray => do
    let _ ← arraySize pc instr.arg1
    return next pc (push state)
  | .print | .pop => do
    let state ← popStack pc state 1
    return next pc state
  | .dup =>
    if state.stackDepth = 0 then fail pc "stack underflow on dup"
    else return next pc (push state)
  | .halt => return ⟨state, [], []⟩

/-! ## The worklist -/

/-- What the worklist loop of `verify_function` carries. -/
structure LoopState where
  states : Nat → Option AbstractState
  reachable : List Nat
  worklist : List Nat
  maxStackDepth : Nat
  callEdges : List (Nat × Nat)
  diagnostics : Diagnostics

def LoopState.error (s : LoopState) (pc : Nat) (message : String) : LoopState :=
  { s with diagnostics := { s.diagnostics with
      errors := pushError s.diagnostics.errors (some pc) message } }

def stackDepthError (depth : Nat) : String :=
  s!"operand stack depth {depth} exceeds limit {maxOperandStack}"

/-- Join the state after `pc` into the state at `successor`. -/
def propagate (range : FunctionRange) (pc : Nat) (state : AbstractState) (s : LoopState)
    (successor : Nat) : LoopState :=
  if pcInRange range successor then
    match s.states successor with
    | some existing =>
      if existing.stackDepth ≠ state.stackDepth then
        s.error successor
          s!"inconsistent stack depth at PC {successor}: saw {existing.stackDepth} and {state.stackDepth}"
      else
        let merged := List.zipWith (· && ·) existing.initializedLocals state.initializedLocals
        if merged = existing.initializedLocals then s
        else { s with
          states := Function.update s.states successor (some ⟨existing.stackDepth, merged⟩)
          worklist := s.worklist ++ [successor] }
    | none => { s with
        states := Function.update s.states successor (some state)
        worklist := s.worklist ++ [successor] }
  else
    s.error pc
      s!"successor PC {successor} leaves function '{range.info.name}' range {range.start}..{range.stop}"

/-- The rest of an iteration once the instruction at `pc` has been stepped. -/
def finishStep (range : FunctionRange) (pc : Nat) (s : LoopState) (step : Step) : LoopState :=
  let s := { s with
    maxStackDepth := max s.maxStackDepth step.state.stackDepth
    callEdges := s.callEdges ++ step.callEdges }
  let s := if step.state.stackDepth > maxOperandStack
    then s.error pc (stackDepthError step.state.stackDepth) else s
  step.successors.foldl (propagate range pc step.state) s

/-- One iteration of the loop, for `pc` taken from the worklist. -/
def visit (program : CompiledProgram) (range : FunctionRange) (pc : Nat) (s : LoopState) :
    LoopState :=
  if pcInRange range pc then
    match s.states pc, program.instructions[pc]? with
    | some state, some instr =>
      let s := { s with
        reachable := if pc ∈ s.reachable then s.reachable else pc :: s.reachable
        maxStackDepth := max s.maxStackDepth state.stackDepth }
      match (stepInstruction program range pc instr state).run s.diagnostics with
      | .ok step diagnostics => finishStep range pc { s with diagnostics := diagnostics } step
      | .error () diagnostics => { s with diagnostics := diagnostics }
    -- `states[&pc]` and `instructions[pc]` exist for every pc that is ever queued
    | _, _ => s
  else
    s.error pc
      s!"control flow in function '{range.info.name}' leaves range {range.start}..{range.stop}"

def loop (program : CompiledProgram) (range : FunctionRange) : Nat → LoopState → LoopState
  | 0, s => s
  | fuel + 1, s =>
    match s.worklist with
    | [] => s
    | pc :: worklist => loop program range fuel (visit program range pc { s with worklist := worklist })

/-- Every instruction of the range is queued once when it is first reached and at most once more
for each local that stops being definitely initialised there. -/
def loopFuel (range : FunctionRange) : Nat :=
  (range.stop - range.start) * (range.info.localCount + 2) + 1

def entryState (info : FunctionInfo) : AbstractState where
  stackDepth := 0
  initializedLocals := (List.range info.localCount).map (· < info.paramCount)

def initialLoop (range : FunctionRange) : LoopState where
  states := Function.update (fun _ ↦ none) range.start (some (entryState range.info))
  reachable := []
  worklist := [range.start]
  maxStackDepth := 0
  callEdges := []
  diagnostics := ⟨[], []⟩

/-- The worklist loop of `verify_function`, run to its end. -/
def verifyFunction (program : CompiledProgram) (range : FunctionRange) : LoopState :=
  loop program range (loopFuel range) (initialLoop range)

def summary (range : FunctionRange) (s : LoopState) : FunctionVerification where
  id := range.id
  name := range.info.name
  entryPc := range.start
  endPc := range.stop
  reachableInstructions := s.reachable.length
  maxStackDepth := s.maxStackDepth

/-! ## Program metadata -/

/-- Claim the slots `slot..slot + width` for one global. -/
def claimSlots (name : String) (slot width : Nat) (claimed : List Bool)
    (errors : List VerificationError) : List Bool × List VerificationError :=
  (List.range width).foldl (fun (claimed, errors) i ↦
    (claimed.set (slot + i) true,
      if claimed[slot + i]? = some true then
        pushError errors none s!"global '{name}' overlaps slot {slot + i}"
      else errors)) (claimed, errors)

def verifyGlobalMetadata : List GlobalInfo → List Bool → List VerificationError →
    List VerificationError
  | [], _, errors => errors
  | info :: infos, claimed, errors =>
    if info.isArray ∧ info.arraySize = 0 then
      verifyGlobalMetadata infos claimed
        (pushError errors none s!"global array '{info.name}' has zero size")
    else
      let width := if info.isArray then info.arraySize else 1
      match checkedAdd info.slot width with
      | none =>
        verifyGlobalMetadata infos claimed
          (pushError errors none s!"global '{info.name}' storage range overflows usize")
      | some last =>
        if last > maxGlobalSlots then
          verifyGlobalMetadata infos claimed (pushError errors none
            s!"global '{info.name}' uses slots {info.slot}..{last}, exceeding limit {maxGlobalSlots}")
        else
          let (claimed, errors) := claimSlots info.name info.slot width claimed errors
          verifyGlobalMetadata infos claimed errors

/-- The checks of `function_ranges` on one function that do not drop it. -/
def functionErrors (info : FunctionInfo) (errors : List VerificationError) :
    List VerificationError :=
  let errors := if info.paramCount > info.localCount then
    pushError errors (some info.entryPc)
      s!"function '{info.name}' has {info.paramCount} params but only {info.localCount} local slots"
    else errors
  if info.localCount > maxLocalSlots then
    pushError errors (some info.entryPc)
      s!"function '{info.name}' needs {info.localCount} local slots, limit is {maxLocalSlots}"
  else errors

/-- The functions whose entry is in bounds, in iteration order, with the errors found. -/
def functionEntries (instructionCount : Nat) : List (Nat × FunctionInfo) → List Nat →
    List VerificationError → List (Nat × FunctionInfo) × List VerificationError
  | [], _, errors => ([], errors)
  | (id, info) :: functions, seenEntries, errors =>
    let errors := functionErrors info errors
    if info.entryPc ≥ instructionCount then
      functionEntries instructionCount functions seenEntries
        (pushError errors (some info.entryPc)
          s!"function '{info.name}' entry PC is out of bounds")
    else
      let errors := if info.entryPc ∈ seenEntries then
        pushError errors (some info.entryPc) s!"duplicate function entry PC {info.entryPc}"
        else errors
      let (entries, errors) :=
        functionEntries instructionCount functions (info.entryPc :: seenEntries) errors
      ((id, info) :: entries, errors)

/-- Each entry's range reaches to the next entry, the last one's to the end of the program. -/
def rangesOf (instructionCount : Nat) : List (Nat × FunctionInfo) → List FunctionRange
  | [] => []
  | [(id, info)] => [⟨id, info, info.entryPc, instructionCount⟩]
  | (id, info) :: (id', info') :: entries =>
    ⟨id, info, info.entryPc, info'.entryPc⟩ ::
      rangesOf instructionCount ((id', info') :: entries)

def functionRanges (program : CompiledProgram) (errors : List VerificationError) :
    List FunctionRange × List VerificationError :=
  let (entries, errors) := functionEntries program.instructions.length
    (program.functions.entries.map fun entry ↦ (entry.fst, entry.snd)) [] errors
  let sorted := entries.mergeSort fun a b ↦ a.2.entryPc ≤ b.2.entryPc
  (rangesOf program.instructions.length sorted, errors)

/-! ## Call depth -/

/-- The functions being visited and the depths already known. -/
structure DepthState where
  visiting : List Nat
  memo : Nat → Option (Option Nat)

mutual

/-- `visit` of `max_frame_depth`; fuel bounds the depth of the recursion, which the `visiting` set
bounds by the number of functions. -/
def depthVisit (callEdges : Nat → List Nat) : Nat → Nat → StateM DepthState (Option Nat)
  | 0, _ => return none
  | fuel + 1, funcId => do
    let s ← get
    match s.memo funcId with
    | some depth => return depth
    | none =>
      if funcId ∈ s.visiting then
        modify fun s ↦ { s with memo := Function.update s.memo funcId (some none) }
        return none
      else
        modify fun s ↦ { s with visiting := funcId :: s.visiting }
        match ← depthChildren callEdges fuel (callEdges funcId) 0 with
        | none => return none
        | some maxChildDepth =>
          let depth := some (maxChildDepth + 1)
          modify fun s ↦ {
            visiting := s.visiting.erase funcId
            memo := Function.update s.memo funcId (some depth) }
          return depth

/-- The loop over the callees, keeping the greatest depth. -/
def depthChildren (callEdges : Nat → List Nat) : Nat → List Nat → Nat →
    StateM DepthState (Option Nat)
  | _, [], maxChildDepth => return some maxChildDepth
  | 0, _ :: _, _ => return none
  | fuel + 1, callee :: callees, maxChildDepth => do
    match ← depthVisit callEdges fuel callee with
    | none => return none
    | some depth => depthChildren callEdges fuel callees (max maxChildDepth depth)

end

/-- The callees of each caller, in the order the edges were found. -/
def calleesOf (edges : List (Nat × Nat)) (caller : Nat) : List Nat :=
  edges.filterMap fun edge ↦ if edge.1 = caller then some edge.2 else none

def maxFrameDepth (mainFuncId : Nat) (edges : List (Nat × Nat)) : Option Nat :=
  let fuel := 2 * (edges.length + 1) * (edges.length + 2)
  ((depthVisit (calleesOf edges) fuel mainFuncId).run ⟨[], fun _ ↦ none⟩).1

/-! ## Backend eligibility -/

def jitSupportsOpcode : Opcode → Bool
  | .loadConst | .loadLocal | .storeLocal | .add | .sub | .mul | .neg | .eq | .ne | .lt | .gt
  | .le | .ge | .not | .pop | .dup | .return => true
  | _ => false

/-- The scan of `jit_status_for_target` from the entry of `main` to its first `Return`. -/
def jitScan : List Instruction → BackendStatus
  | [] => .no "main function has no return"
  | instr :: instrs =>
    if jitSupportsOpcode instr.opcode then
      if instr.opcode = .return then .yes else jitScan instrs
    else .no s!"unsupported opcode {instr.opcode.debug}"

/-- JIT eligibility on Linux x86-64. -/
def jitStatus (program : CompiledProgram) (possibleTraps : List TrapCode) : BackendStatus :=
  if possibleTraps ≠ [] then
    .no ("JIT requires trap-free bytecode; possible " ++
      ", ".intercalate (possibleTraps.map TrapCode.debug))
  else if program.functions.entries.length ≠ 1 then .no "JIT requires exactly one function"
  else match program.functions.lookup program.mainFuncId with
    | none => .no "missing main function metadata"
    | some mainFunc => jitScan (program.instructions.drop mainFunc.entryPc)

def backendEligibility (program : CompiledProgram) (valid : Bool)
    (possibleTraps : List TrapCode) : BackendEligibility :=
  if valid then ⟨.yes, .yes, .yes, jitStatus program possibleTraps⟩
  else
    let rejected := BackendStatus.no "verification errors"
    ⟨rejected, rejected, rejected, rejected⟩

/-! ## The report -/

def instructionCountError (count : Nat) : String :=
  s!"instruction count {count} exceeds limit {maxInstructions}"

/-- The errors found before any function is verified. -/
def programErrors (program : CompiledProgram) : List VerificationError :=
  let errors := verifyGlobalMetadata program.globals.values
    (List.replicate maxGlobalSlots false) []
  let errors := if program.functions.entries = [] then
    pushError errors none "program has no functions" else errors
  let errors := if (program.functions.lookup program.mainFuncId).isNone then
    pushError errors none
      s!"main function id {program.mainFuncId} is missing from function metadata" else errors
  if program.instructions.length > maxInstructions then
    pushError errors none (instructionCountError program.instructions.length) else errors

/-- Verify a compiled program and return a structured report. -/
def verify (program : CompiledProgram) : VerificationReport :=
  let (ranges, errors) := functionRanges program (programErrors program)
  let checks := ranges.map (verifyFunction program)
  let errors := errors ++ checks.flatMap fun check ↦ check.diagnostics.errors
  let possibleTraps := (checks.flatMap fun check ↦ check.diagnostics.possibleTraps).foldl pushTrap []
  let functions := List.zipWith summary ranges checks
  let frameDepth := maxFrameDepth program.mainFuncId (checks.flatMap LoopState.callEdges)
  let possibleTraps :=
    match frameDepth with
    | some depth => if depth > maxFrames then pushTrap possibleTraps .stackOverflow
      else possibleTraps
    | none => pushTrap possibleTraps .stackOverflow
  let valid := errors.isEmpty
  { valid := valid
    errors := errors
    functions := functions
    possibleTraps := possibleTraps
    maxStackDepth := (functions.map FunctionVerification.maxStackDepth).foldl max 0
    maxFrameDepth := frameDepth
    backendEligibility := backendEligibility program valid possibleTraps }

end Verifier

end MiniLang
