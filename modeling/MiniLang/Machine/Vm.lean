import MiniLang.Bytecode.Trace
import MiniLang.Lib.StateExcept
import MiniLang.Lib.Stepping

/-!
# The reference virtual machine

A stack machine with one operand stack and one vector of locals for all frames. The first
`maxLocalSlots` cells of the vector hold the frames' slots, one frame after the other; arrays are
appended behind them and named by the index of their first cell. Values are `i64`, modelled by
integers; the places where Rust would panic (an index out of range, an overflow of `-` or `/`,
`unwrap` on an empty frame stack) are results of their own.

Stacks are lists with their top first.

## Locals and arrays

A local that has not been set holds the least `i64`, which no instruction computes from 32-bit
values: `LoadLocal` recognises it and traps. The base of an array is an ordinary value to the
machine, and `local_array_base` checks only that it is not negative and that the array ends within
the vector. What keeps a base apart from other values is the compiler, not the machine.

## A step

`step` counts the cycle, executes one instruction and advances the program counter unless the
instruction has set it. `start` is the preflight, which refuses a program by its sizes before
anything runs. `run` iterates steps with fuel, which stands for time only: every budget of cycles
but 0 bounds a run by itself.
-/

namespace MiniLang

/-! ## Arithmetic the machines share -/

/-- `i64::MIN`, the marker of an undefined local. -/
def i64Min : Int := -2 ^ 63

/-- The `i64` that a sum, difference or product wraps around to. -/
def wrapI64 (value : Int) : Int := Int.bmod value (2 ^ 64)

/-- Normalize a value to 32-bit signed two's complement: `value & 0xFFFFFFFF`, shifted down when
its top bit is set. -/
def normalizeI32 (value : Int) : Int :=
  let masked := value % 0x100000000
  if masked > 0x7FFFFFFF then masked - 0x100000000 else masked

/-- Why the execution of an instruction ends early. -/
inductive Stop
  | trap (code : TrapCode) (message : String)
  | panic
deriving DecidableEq

/-- `if cond { 1 } else { 0 }`. -/
def flag (p : Prop) [Decidable p] : Int := if p then 1 else 0

/-- The global slots the metadata asks for, or the trap of the first bad entry. -/
def requiredGlobalSlots : List GlobalInfo → Nat → Except (TrapCode × String) Nat
  | [], maxSlot => .ok maxSlot
  | info :: infos, maxSlot =>
    if info.isArray ∧ info.arraySize = 0 then
      .error (.invalidInstruction, s!"Global array '{info.name}' has zero size")
    else
      match checkedAdd info.slot (if info.isArray then info.arraySize else 1) with
      | none => .error (.invalidInstruction, "Global storage range overflow")
      | some last => requiredGlobalSlots infos (max maxSlot last)

/-- The checks of `validate_program` on one function. -/
def validateFunctions : List FunctionInfo → Except (TrapCode × String) Unit
  | [] => .ok ()
  | func :: funcs =>
    if func.paramCount > func.localCount then
      .error (.invalidInstruction,
        s!"Function '{func.name}' has {func.paramCount} parameters but only {func.localCount} local slots")
    else if func.localCount > maxLocalSlots then
      .error (.stackOverflow,
        s!"Function '{func.name}' needs {func.localCount} local slots, max {maxLocalSlots}")
    else validateFunctions funcs

/-- `validate_program`, the same in both machines. -/
def CompiledProgram.validate (program : CompiledProgram) : Except (TrapCode × String) Unit :=
  if program.instructions.length > maxInstructions then
    .error (.invalidInstruction,
      s!"Instruction count {program.instructions.length} exceeds limit {maxInstructions}")
  else do
    validateFunctions program.functions.values
    let globalSlots ← requiredGlobalSlots program.globals.values 0
    if globalSlots > maxGlobalSlots then
      .error (.invalidInstruction,
        s!"Global storage exceeds {maxGlobalSlots} slots (needs {globalSlots})")

/-! ## State -/

/-- Call frame for function calls. -/
structure CallFrame where
  returnPc : Nat
  basePtr : Nat
  funcId : Nat
deriving DecidableEq

/-- VM execution result. -/
structure VmResult where
  success : Bool
  returnValue : Int
  trapCode : TrapCode
  trapMessage : String
  cycles : Nat
  output : List String
  pc : Nat
  stackDepth : Nat
  frameDepth : Nat
deriving DecidableEq

structure Vm where
  stack : List Int
  locals : List Int
  globals : List Int
  callStack : List CallFrame
  pc : Nat
  cycles : Nat
  /-- 0 means unlimited. -/
  maxCycles : Nat
  output : List String
  trace : Option (List TraceEvent)

/-- What a run ends with. -/
inductive VmHalt
  | result (result : VmResult)
  | panic
deriving DecidableEq

namespace Vm

/-- Create a new VM. -/
def new : Vm where
  stack := []
  locals := List.replicate maxLocalSlots i64Min
  globals := List.replicate maxGlobalSlots 0
  callStack := []
  pc := 0
  cycles := 0
  maxCycles := MiniLang.maxCycles
  output := []
  trace := none

def withMaxCycles (vm : Vm) (max : Nat) : Vm := { vm with maxCycles := max }

def withTrace (vm : Vm) : Vm := { vm with trace := some [] }

abbrev VmM := EStateM Stop Vm

def trap {α : Type} (code : TrapCode) (message : String) : VmM α := throw (.trap code message)

/-! ## Operands -/

def pop : VmM Int := do
  match (← get).stack with
  | [] => trap .stackUnderflow "Stack underflow"
  | value :: stack => do
    modify fun vm ↦ { vm with stack := stack }
    return value

def push (value : Int) : VmM Unit := do
  if (← get).stack.length ≥ maxOperandStack then
    trap .stackOverflow s!"Operand stack overflow (max {maxOperandStack} entries)"
  else modify fun vm ↦ { vm with stack := value :: vm.stack }

/-- Read a cell of the locals; Rust panics out of range. -/
def readLocal (slot : Nat) : VmM Int := do
  match (← get).locals[slot]? with
  | some value => return value
  | none => throw .panic

def writeLocal (slot : Nat) (value : Int) : VmM Unit := do
  if slot < (← get).locals.length then
    modify fun vm ↦ { vm with locals := vm.locals.set slot value }
  else throw .panic

def readGlobal (slot : Nat) : VmM Int := do
  match (← get).globals[slot]? with
  | some value => return value
  | none => throw .panic

def writeGlobal (slot : Nat) (value : Int) : VmM Unit := do
  if slot < (← get).globals.length then
    modify fun vm ↦ { vm with globals := vm.globals.set slot value }
  else throw .panic

section

variable (program : CompiledProgram)

def currentLocalSlot (rawSlot : Int32) : VmM Nat := do
  if rawSlot < 0 then trap .invalidInstruction s!"Negative local slot {rawSlot.toInt}"
  else
    match (← get).callStack with
    | [] => trap .invalidInstruction "No active call frame"
    | frame :: _ =>
      let relativeSlot := asUsize rawSlot
      match program.functions.lookup frame.funcId with
      | none => trap .undefinedFunction s!"Undefined function {frame.funcId}"
      | some func =>
        if relativeSlot ≥ func.localCount then
          trap .invalidInstruction
            s!"Local slot {relativeSlot} out of range for function {frame.funcId} ({func.localCount} locals)"
        else
          match checkedAdd frame.basePtr relativeSlot with
          | none => trap .stackOverflow "Local slot overflow"
          | some slot =>
            if slot ≥ maxLocalSlots then
              trap .stackOverflow
                s!"Local storage overflow (slot {slot}, max {maxLocalSlots})"
            else return slot

end

def globalSlot (rawSlot : Int32) : VmM Nat := do
  if rawSlot < 0 then trap .invalidInstruction s!"Negative global slot {rawSlot.toInt}"
  else
    let slot := asUsize rawSlot
    let slots := (← get).globals.length
    if slot ≥ slots then
      trap .invalidInstruction s!"Global slot {slot} out of range ({slots} slots)"
    else return slot

def arraySize (rawSize : Int32) : VmM Nat :=
  if rawSize < 0 then trap .invalidInstruction s!"Negative array size {rawSize.toInt}"
  else return asUsize rawSize

def globalArrayRange (rawBaseSlot rawArraySize : Int32) : VmM (Nat × Nat) := do
  let baseSlot ← globalSlot rawBaseSlot
  let size ← arraySize rawArraySize
  match checkedAdd baseSlot size with
  | none => trap .invalidInstruction "Global array range overflow"
  | some last =>
    let slots := (← get).globals.length
    if last > slots then
      trap .invalidInstruction
        s!"Global array range [{baseSlot}..{last}) exceeds {slots} global slots"
    else return (baseSlot, size)

def arrayIndex (rawIndex : Int) (arraySize : Nat) : VmM Nat :=
  if rawIndex < 0 ∨ rawIndex.toNat ≥ arraySize then
    trap .arrayOutOfBounds s!"Array index {rawIndex} out of bounds (size {arraySize})"
  else return rawIndex.toNat

def localArrayBase (refSlot arraySize : Nat) : VmM Nat := do
  let rawBase ← readLocal refSlot
  if rawBase = i64Min then trap .undefinedLocal s!"Undefined local at slot {refSlot}"
  else if rawBase < 0 then trap .invalidInstruction s!"Invalid local array base {rawBase}"
  else
    let arrayBase := rawBase.toNat
    match checkedAdd arrayBase arraySize with
    | none => trap .invalidInstruction "Local array range overflow"
    | some last =>
      let slots := (← get).locals.length
      if last > slots then
        trap .invalidInstruction
          s!"Local array range [{arrayBase}..{last}) exceeds {slots} local slots"
      else return arrayBase

/-! ## Instructions -/

/-- Pop `b`, pop `a`, push `f a b`: the shape shared by the total binary operations. -/
def binary (f : Int → Int → Int) : VmM Bool := do
  let b ← pop
  let a ← pop
  push (f a b)
  return true

/-- Copy arguments to the new frame's locals, last argument first. -/
def copyArgs (newBase : Nat) : Nat → VmM Unit
  | 0 => return ()
  | i + 1 => do
    let arg ← pop
    writeLocal (newBase + i) arg
    copyArgs newBase i

/-- Initialize the locals `first..first + count` of the new frame as undefined. -/
def clearLocals (newBase first : Nat) : Nat → VmM Unit
  | 0 => return ()
  | count + 1 => do
    writeLocal (newBase + first) i64Min
    clearLocals newBase (first + 1) count

section

variable (program : CompiledProgram)

/-- `local_count` of the current frame's function, 0 when there is none. -/
def currentLocalCount (vm : Vm) : Nat :=
  let funcId := (vm.callStack.head?.map CallFrame.funcId).getD 0
  ((program.functions.lookup funcId).map FunctionInfo.localCount).getD 0

def call (arg1 arg2 : Int32) : VmM Bool := do
  if arg1 < 0 then trap .invalidInstruction s!"Negative function id {arg1.toInt}"
  else if arg2 < 0 then trap .invalidInstruction s!"Negative call argument count {arg2.toInt}"
  else
    let funcId := asUsize arg1
    let argCount := asUsize arg2
    match program.functions.lookup funcId with
    | none => trap .undefinedFunction s!"Undefined function {funcId}"
    | some func =>
      if argCount ≠ func.paramCount then
        trap .invalidInstruction
          s!"Call has {argCount} arguments but function {funcId} expects {func.paramCount}"
      else if (← get).callStack.length ≥ maxFrames then
        trap .stackOverflow s!"Call stack overflow (max {maxFrames} frames)"
      else
        let vm ← get
        let newBase := (vm.callStack.head?.map CallFrame.basePtr).getD 0
          + currentLocalCount program vm
        match checkedAdd newBase func.localCount with
        | none => trap .stackOverflow "Local storage overflow"
        | some requiredLocals =>
          if requiredLocals > maxLocalSlots then
            trap .stackOverflow
              s!"Local storage overflow (need {requiredLocals} slots, max {maxLocalSlots})"
          else
            copyArgs newBase argCount
            clearLocals newBase argCount (func.localCount - argCount)
            modify fun vm ↦ { vm with
              callStack := ⟨vm.pc + 1, newBase, funcId⟩ :: vm.callStack
              pc := func.entryPc }
            return false

def ret : VmM Bool := do
  let returnValue ← pop
  match (← get).callStack with
  | [] => throw .panic
  | frame :: frames =>
    modify fun vm ↦ { vm with callStack := frames }
    push returnValue
    if frame.returnPc ≠ usizeMax then modify fun vm ↦ { vm with pc := frame.returnPc }
    return false

/-- Execute one instruction; `true` means that the program counter still has to advance. -/
def executeInstruction (opcode : Opcode) (arg1 arg2 : Int32) : VmM Bool :=
  match opcode with
  | .loadConst => do
    push arg1.toInt
    return true
  | .loadLocal => do
    let slot ← currentLocalSlot program arg1
    let value ← readLocal slot
    if value = i64Min then trap .undefinedLocal s!"Undefined local at slot {arg1.toInt}"
    else
      push value
      return true
  | .storeLocal => do
    let value ← pop
    let slot ← currentLocalSlot program arg1
    writeLocal slot value
    return true
  | .loadGlobal => do
    let slot ← globalSlot arg1
    let value ← readGlobal slot
    push value
    return true
  | .storeGlobal => do
    let slot ← globalSlot arg1
    let value ← pop
    writeGlobal slot value
    return true
  | .add => binary fun a b ↦ normalizeI32 (wrapI64 (a + b))
  | .sub => binary fun a b ↦ normalizeI32 (wrapI64 (a - b))
  | .mul => binary fun a b ↦ normalizeI32 (wrapI64 (a * b))
  | .div => do
    let b ← pop
    let a ← pop
    if b = 0 then trap .divideByZero "Division by zero"
    else if a = i64Min ∧ b = -1 then throw .panic
    else
      push (normalizeI32 (a.tdiv b))
      return true
  | .neg => do
    let a ← pop
    if a = i64Min then throw .panic
    else
      push (normalizeI32 (-a))
      return true
  | .eq => binary fun a b ↦ flag (a = b)
  | .ne => binary fun a b ↦ flag (a ≠ b)
  | .lt => binary fun a b ↦ flag (a < b)
  | .gt => binary fun a b ↦ flag (a > b)
  | .le => binary fun a b ↦ flag (a ≤ b)
  | .ge => binary fun a b ↦ flag (a ≥ b)
  | .and => binary fun a b ↦ flag (a ≠ 0 ∧ b ≠ 0)
  | .or => binary fun a b ↦ flag (a ≠ 0 ∨ b ≠ 0)
  | .not => do
    let a ← pop
    push (flag (a = 0))
    return true
  | .jump => do
    modify fun vm ↦ { vm with pc := asUsize arg1 }
    return false
  | .jumpIfFalse => do
    let cond ← pop
    if cond = 0 then
      modify fun vm ↦ { vm with pc := asUsize arg1 }
      return false
    else return true
  | .jumpIfTrue => do
    let cond ← pop
    if cond ≠ 0 then
      modify fun vm ↦ { vm with pc := asUsize arg1 }
      return false
    else return true
  | .call => call program arg1 arg2
  | .return => ret
  | .arrayLoad => do
    let (baseSlot, size) ← globalArrayRange arg1 arg2
    let index ← arrayIndex (← pop) size
    let value ← readGlobal (baseSlot + index)
    push value
    return true
  | .arrayStore => do
    let (baseSlot, size) ← globalArrayRange arg1 arg2
    let value ← pop
    let index ← arrayIndex (← pop) size
    writeGlobal (baseSlot + index) value
    return true
  | .localArrayLoad => do
    let size ← arraySize arg2
    let index ← arrayIndex (← pop) size
    let refSlot ← currentLocalSlot program arg1
    let arrayBase ← localArrayBase refSlot size
    let value ← readLocal (arrayBase + index)
    push value
    return true
  | .localArrayStore => do
    let size ← arraySize arg2
    let value ← pop
    let index ← arrayIndex (← pop) size
    let refSlot ← currentLocalSlot program arg1
    let arrayBase ← localArrayBase refSlot size
    writeLocal (arrayBase + index) value
    return true
  | .arrayNew | .allocArray => do
    let size ← arraySize arg1
    -- a bump allocation at the end of the locals
    let base := (← get).locals.length
    modify fun vm ↦ { vm with locals := vm.locals ++ List.replicate size 0 }
    push base
    return true
  | .print => do
    let value ← pop
    modify fun vm ↦ { vm with output := vm.output ++ [s!"OUTPUT: {value}"] }
    return true
  | .pop => do
    let _ ← pop
    return true
  | .dup => do
    match (← get).stack with
    | [] => trap .stackUnderflow "Stack underflow"
    | value :: _ =>
      push value
      return true
  | .halt => do
    let value := (← get).stack.head?.getD 0
    modify fun vm ↦ { vm with stack := vm.stack.tail, callStack := [] }
    push value
    return false

end

/-! ## Runs -/

def makeTrapResult (vm : Vm) (trapCode : TrapCode) (message : String) : VmResult where
  success := false
  returnValue := 0
  trapCode := trapCode
  trapMessage := message
  cycles := vm.cycles
  output := vm.output
  pc := vm.pc
  stackDepth := vm.stack.length
  frameDepth := vm.callStack.length

/-- The event of the instruction that took `before` to `after`. -/
def recordTrace (before after : Vm) (instr : Instruction) (outcome : TraceOutcome) : Vm :=
  { after with trace := after.trace.map fun events ↦ events ++ [{
      cycle := after.cycles
      pc := before.pc
      opcode := instr.opcode.debug
      arg1 := instr.arg1
      arg2 := instr.arg2
      stackBefore := before.stack.reverse
      stackAfter := after.stack.reverse
      frameDepthBefore := before.callStack.length
      frameDepthAfter := after.callStack.length
      nextPc := after.pc
      outcome := outcome }] }

section

variable (program : CompiledProgram)

/-- The end of an iteration of the loop in `run`, after the instruction has been executed. -/
def afterInstruction (before : Vm) (instr : Instruction) (vm : Vm) (advance : Bool) :
    Vm ⊕ (VmHalt × Vm) :=
  let vm := if advance then { vm with pc := vm.pc + 1 } else vm
  if vm.callStack = [] then
    let vm := recordTrace before vm instr .exit
    .inr (.result {
      success := true
      returnValue := vm.stack.head?.getD 0
      trapCode := .none
      trapMessage := ""
      cycles := vm.cycles
      output := vm.output
      pc := vm.pc
      stackDepth := vm.stack.tail.length
      frameDepth := vm.callStack.length }, { vm with stack := vm.stack.tail })
  else .inl (recordTrace before vm instr (if advance then .continue else .jump))

/-- One iteration of the loop in `run`: the next state, or how the run ends and the final state. -/
def step (vm : Vm) : Vm ⊕ (VmHalt × Vm) :=
  if vm.maxCycles > 0 ∧ vm.cycles ≥ vm.maxCycles then
    .inr (.result (vm.makeTrapResult .cycleLimit
      s!"Cycle limit exceeded ({vm.maxCycles} cycles)"), vm)
  else
    match program.instructions[vm.pc]? with
    | none =>
      .inr (.result (vm.makeTrapResult .invalidInstruction s!"PC out of bounds: {vm.pc}"), vm)
    | some instr =>
      match (executeInstruction program instr.opcode instr.arg1 instr.arg2).run
          { vm with cycles := vm.cycles + 1 } with
      | .ok advance after => afterInstruction vm instr after advance
      | .error (.trap code message) after =>
        .inr (.result (after.makeTrapResult code message),
          recordTrace vm after instr (.trap code message))
      | .error .panic after => .inr (.panic, after)

/-- `run` up to the main loop: the state it starts in, or the trap result of the preflight. -/
def start (vm : Vm) : Vm ⊕ VmResult :=
  match program.validate with
  | .error (code, message) => .inr (vm.makeTrapResult code message)
  | .ok () =>
    match program.functions.lookup program.mainFuncId with
    | none => .inr (vm.makeTrapResult .undefinedFunction "No main function found")
    | some mainFunc =>
      if mainFunc.localCount > maxLocalSlots then
        .inr (vm.makeTrapResult .stackOverflow
          s!"Local storage overflow (need {mainFunc.localCount} slots, max {maxLocalSlots})")
      else .inl { vm with
        pc := mainFunc.entryPc
        callStack := ⟨usizeMax, 0, mainFunc.id⟩ :: vm.callStack }

/-- `run`, with the state the machine is left in, for at most `fuel` iterations of its loop. -/
def runFull (fuel : Nat) (vm : Vm) : Option (VmHalt × Vm) :=
  match start program vm with
  | .inr result => some (.result result, vm)
  | .inl vm => Stepping.run (step program) fuel vm

/-- Run the program for at most `fuel` iterations of the loop. -/
def run (fuel : Nat) (vm : Vm) : Option VmHalt := (vm.runFull program fuel).map Prod.fst

end

end Vm

end MiniLang
