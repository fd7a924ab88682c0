import MiniLang.Machine.Vm

/-!
# The garbage-collected virtual machine

Every frame has locals of its own, and arrays live in a heap of numbered slots that a mark-sweep
collection recycles. Ids are `u32` in the source and natural numbers here: the heap never grows past
its bound, which is far below `2 ^ 32`.

## The heap

A slot of the heap holds an array or is free, and the free slots are also on a list, the most
recently freed one on top. An allocation collects first if the slots in use have reached the
threshold; then it takes a slot from the list, or the next new one. The roots of a collection are
the references on the stack, in the globals and in those locals of all frames that have been set.
What is marked stays in its slot, so that a reference held anywhere keeps its meaning.

## Next to the reference machine

The instructions are those of the reference machine on a different representation. A local has a
flag that says whether it was set instead of a marker among its values, an array is a value of its
own instead of the index of a cell, and there is no limit on the locals of all frames together.
Where the source would panic, the model stops with `Stop.panic`, as in the reference machine.
-/

namespace MiniLang

/-- A value that can be either immediate or a heap reference. -/
inductive GcValue
  | int (value : Int)
  | arrayRef (id : Nat)
deriving DecidableEq

namespace GcValue

def isTruthy : GcValue → Bool
  | .int v => v ≠ 0
  | .arrayRef _ => true

def toI64 : GcValue → Int
  | .int v => v
  | .arrayRef id => id

end GcValue

/-- Heap-allocated array. -/
structure HeapArray where
  data : List Int
  marked : Bool
deriving DecidableEq

def HeapArray.new (size : Nat) : HeapArray := ⟨List.replicate size 0, false⟩

/-- Call frame with proper local tracking. -/
structure GcCallFrame where
  returnPc : Nat
  locals : List GcValue
  initFlags : List Bool
deriving DecidableEq

namespace GcCallFrame

def new (localCount returnPc : Nat) : GcCallFrame :=
  ⟨returnPc, List.replicate localCount (.int 0), List.replicate localCount false⟩

def get (frame : GcCallFrame) (slot : Nat) : Option GcValue :=
  if frame.initFlags[slot]? = some true then frame.locals[slot]? else none

def set (frame : GcCallFrame) (slot : Nat) (value : GcValue) : GcCallFrame :=
  { frame with locals := frame.locals.set slot value, initFlags := frame.initFlags.set slot true }

def initParams (frame : GcCallFrame) : Nat → List GcValue → GcCallFrame
  | _, [] => frame
  | slot, arg :: args => (frame.set slot arg).initParams (slot + 1) args

end GcCallFrame

structure GcVmResult where
  success : Bool
  returnValue : Int
  trapCode : TrapCode
  trapMessage : String
  cycles : Nat
  output : List String
  pc : Nat
  stackDepth : Nat
  frameDepth : Nat
  gcCollections : Nat
  gcObjectsFreed : Nat
  heapArraysAllocated : Nat
deriving DecidableEq

structure GcVm where
  stack : List GcValue
  globals : List GcValue
  callStack : List GcCallFrame
  heapArrays : List (Option HeapArray)
  /-- The free list, next slot to hand out first. -/
  freeArraySlots : List Nat
  nextArrayId : Nat
  pc : Nat
  cycles : Nat
  maxCycles : Nat
  output : List String
  gcCollections : Nat
  gcObjectsFreed : Nat
  gcThreshold : Nat
  trace : Option (List TraceEvent)

inductive GcVmHalt
  | result (result : GcVmResult)
  | panic
deriving DecidableEq

namespace GcVm

def new : GcVm where
  stack := []
  globals := List.replicate maxGlobalSlots (.int 0)
  callStack := []
  heapArrays := []
  freeArraySlots := []
  nextArrayId := 0
  pc := 0
  cycles := 0
  maxCycles := MiniLang.maxCycles
  output := []
  gcCollections := 0
  gcObjectsFreed := 0
  gcThreshold := MiniLang.gcThreshold
  trace := none

def withMaxCycles (vm : GcVm) (max : Nat) : GcVm := { vm with maxCycles := max }

def withTrace (vm : GcVm) : GcVm := { vm with trace := some [] }

/-! ## The heap -/

/-- The array a value refers to. -/
def refId? : GcValue → Option Nat
  | .int _ => none
  | .arrayRef id => some id

/-- The initialised locals of a frame. -/
def initialisedLocals (frame : GcCallFrame) : List GcValue :=
  (frame.locals.zip frame.initFlags).filterMap fun (value, flag) ↦ if flag then some value else none

/-- The array ids a collection marks: those on the stack, in the globals, and in the initialised
locals of all frames. -/
def idsToMark (vm : GcVm) : List Nat :=
  vm.stack.reverse.filterMap refId? ++ vm.globals.filterMap refId? ++
    vm.callStack.reverse.flatMap fun frame ↦ (initialisedLocals frame).filterMap refId?

def clearMarks (heap : List (Option HeapArray)) : List (Option HeapArray) :=
  heap.map fun slot ↦ slot.map fun arr ↦ { arr with marked := false }

def markId (heap : List (Option HeapArray)) (id : Nat) : List (Option HeapArray) :=
  heap.modify id fun slot ↦ slot.map fun arr ↦ { arr with marked := true }

/-- The sweep phase from slot `i` on: the heap it leaves and the slots it frees, in order. -/
def sweep : Nat → List (Option HeapArray) → List (Option HeapArray) × List Nat
  | _, [] => ([], [])
  | i, slot :: heap =>
    let (heap, freed) := sweep (i + 1) heap
    match slot with
    | some arr => if arr.marked then (some arr :: heap, freed) else (none :: heap, i :: freed)
    | none => (none :: heap, freed)

/-- Mark-sweep garbage collection. -/
def collectGarbage (vm : GcVm) : GcVm :=
  let marked := vm.idsToMark.foldl markId (clearMarks vm.heapArrays)
  let (heap, freed) := sweep 0 marked
  { vm with
    gcCollections := vm.gcCollections + 1
    heapArrays := heap
    freeArraySlots := freed.reverse ++ vm.freeArraySlots
    gcObjectsFreed := vm.gcObjectsFreed + freed.length }

/-- The allocation proper: a free slot if there is one, else a new slot. -/
def takeSlot (vm : GcVm) (array : HeapArray) : Nat × GcVm :=
  match vm.freeArraySlots with
  | slot :: free =>
    (slot, { vm with
      freeArraySlots := free
      heapArrays := vm.heapArrays.set slot (some array) })
  | [] =>
    let id := vm.nextArrayId
    (id, { vm with
      nextArrayId := id + 1
      heapArrays :=
        if id < vm.heapArrays.length then vm.heapArrays.set id (some array)
        else vm.heapArrays ++ [some array] })

/-- Allocate a heap array. -/
def allocArray (vm : GcVm) (size : Nat) : Nat × GcVm :=
  let vm :=
    if vm.heapArrays.length - vm.freeArraySlots.length ≥ vm.gcThreshold then vm.collectGarbage
    else vm
  vm.takeSlot (HeapArray.new size)

def getArray (vm : GcVm) (id : Nat) : Option HeapArray := vm.heapArrays[id]?.join

/-! ## Operands -/

abbrev GcVmM := EStateM Stop GcVm

def trap {α : Type} (code : TrapCode) (message : String) : GcVmM α := throw (.trap code message)

def pop : GcVmM GcValue := do
  match (← get).stack with
  | [] => trap .stackUnderflow "Stack underflow"
  | value :: stack => do
    modify fun vm ↦ { vm with stack := stack }
    return value

def push (value : GcValue) : GcVmM Unit := do
  if (← get).stack.length ≥ maxOperandStack then
    trap .stackOverflow s!"Operand stack overflow (max {maxOperandStack} entries)"
  else modify fun vm ↦ { vm with stack := value :: vm.stack }

def popInt : GcVmM Int := do return (← pop).toI64

def currentFrame : GcVmM GcCallFrame := do
  match (← get).callStack with
  | [] => trap .invalidInstruction "No active call frame"
  | frame :: _ => return frame

def currentLocalSlot (rawSlot : Int32) : GcVmM Nat := do
  if rawSlot < 0 then trap .invalidInstruction s!"Negative local slot {rawSlot.toInt}"
  else
    let slot := asUsize rawSlot
    let frame ← currentFrame
    if slot ≥ frame.locals.length then
      trap .invalidInstruction s!"Local slot {slot} out of range ({frame.locals.length} locals)"
    else return slot

def globalSlot (rawSlot : Int32) : GcVmM Nat := do
  if rawSlot < 0 then trap .invalidInstruction s!"Negative global slot {rawSlot.toInt}"
  else
    let slot := asUsize rawSlot
    let slots := (← get).globals.length
    if slot ≥ slots then
      trap .invalidInstruction s!"Global slot {slot} out of range ({slots} slots)"
    else return slot

def arraySize (rawSize : Int32) : GcVmM Nat :=
  if rawSize < 0 then trap .invalidInstruction s!"Negative array size {rawSize.toInt}"
  else return asUsize rawSize

def globalArrayRange (rawBaseSlot rawArraySize : Int32) : GcVmM (Nat × Nat) := do
  let baseSlot ← globalSlot rawBaseSlot
  let size ← arraySize rawArraySize
  match checkedAdd baseSlot size with
  | none => trap .invalidInstruction "Global array range overflow"
  | some last =>
    let slots := (← get).globals.length
    if last > slots then
      trap .invalidInstruction
        s!"Global array range [{baseSlot}..{last}) exceeds {slots} global slots"
    else return (baseSlot, size)

def arrayIndex (rawIndex : Int) (arraySize : Nat) : GcVmM Nat :=
  if rawIndex < 0 ∨ rawIndex.toNat ≥ arraySize then
    trap .arrayOutOfBounds s!"Array index {rawIndex} out of bounds (size {arraySize})"
  else return rawIndex.toNat

def readGlobal (slot : Nat) : GcVmM GcValue := do
  match (← get).globals[slot]? with
  | some value => return value
  | none => throw .panic

def writeGlobal (slot : Nat) (value : GcValue) : GcVmM Unit := do
  if slot < (← get).globals.length then
    modify fun vm ↦ { vm with globals := vm.globals.set slot value }
  else throw .panic

/-- `frame.set(slot, value)` on the current frame. -/
def setLocal (slot : Nat) (value : GcValue) : GcVmM Unit := do
  match (← get).callStack with
  | [] => trap .invalidInstruction "No active call frame"
  | frame :: frames => modify fun vm ↦ { vm with callStack := frame.set slot value :: frames }

/-- Element `index` of heap array `id`. -/
def loadElement (id index : Nat) : GcVmM GcValue := do
  match (← get).getArray id with
  | none => trap .invalidInstruction "Invalid array reference"
  | some arr =>
    match arr.data[index]? with
    | some value => return .int value
    | none =>
      trap .arrayOutOfBounds s!"Array index {index} out of bounds (size {arr.data.length})"

def storeElement (id index : Nat) (value : Int) : GcVmM Unit := do
  match (← get).getArray id with
  | none => trap .invalidInstruction "Invalid array reference"
  | some arr =>
    if index < arr.data.length then
      modify fun vm ↦ { vm with
        heapArrays := vm.heapArrays.set id (some { arr with data := arr.data.set index value }) }
    else
      trap .arrayOutOfBounds s!"Array index {index} out of bounds (size {arr.data.length})"

/-! ## Instructions -/

/-- Pop integers `b` and `a`, push `f a b`. -/
def binary (f : Int → Int → Int) : GcVmM Bool := do
  let b ← popInt
  let a ← popInt
  push (.int (f a b))
  return true

/-- Pop `b` and `a`, push the logical combination of their truth values. -/
def logical (f : Bool → Bool → Bool) : GcVmM Bool := do
  let b ← pop
  let a ← pop
  push (.int (flag (f a.isTruthy b.isTruthy)))
  return true

/-- Pop `count` arguments; the last one popped comes first. -/
def popArgs : Nat → List GcValue → GcVmM (List GcValue)
  | 0, args => return args
  | count + 1, args => do
    let arg ← pop
    popArgs count (arg :: args)

def alloc (arg1 : Int32) : GcVmM Bool := do
  let size ← arraySize arg1
  let id ← modifyGet (allocArray · size)
  push (.arrayRef id)
  return true

def ret : GcVmM Bool := do
  let returnValue ← pop
  match (← get).callStack with
  | [] => throw .panic
  | frame :: frames =>
    modify fun vm ↦ { vm with callStack := frames }
    if frame.returnPc ≠ usizeMax then modify fun vm ↦ { vm with pc := frame.returnPc }
    push returnValue
    return false

section

variable (program : CompiledProgram)

def call (arg1 arg2 : Int32) : GcVmM Bool := do
  if arg1 < 0 then trap .invalidInstruction s!"Negative function id {arg1.toInt}"
  else if arg2 < 0 then trap .invalidInstruction s!"Negative call argument count {arg2.toInt}"
  else
    let funcId := asUsize arg1
    let argCount := asUsize arg2
    match program.functions.lookup funcId with
    | none => trap .undefinedFunction s!"Undefined function {funcId}"
    | some func =>
      if (← get).callStack.length ≥ maxFrames then
        trap .stackOverflow s!"Call stack overflow (max {maxFrames} frames)"
      else if argCount ≠ func.paramCount then
        trap .invalidInstruction
          s!"Call has {argCount} arguments but function {funcId} expects {func.paramCount}"
      else
        let args ← popArgs argCount []
        modify fun vm ↦ { vm with
          callStack := (GcCallFrame.new func.localCount (vm.pc + 1)).initParams 0 args ::
            vm.callStack
          pc := func.entryPc }
        return false

/-- Execute one instruction; `true` means that the program counter still has to advance. -/
def executeInstruction (opcode : Opcode) (arg1 arg2 : Int32) : GcVmM Bool :=
  match opcode with
  | .loadConst => do
    push (.int arg1.toInt)
    return true
  | .loadLocal => do
    let slot ← currentLocalSlot arg1
    match (← currentFrame).get slot with
    | some value =>
      push value
      return true
    | none => trap .undefinedLocal s!"Undefined local at slot {arg1.toInt}"
  | .storeLocal => do
    let slot ← currentLocalSlot arg1
    let value ← pop
    setLocal slot value
    return true
  | .loadGlobal => do
    let slot ← globalSlot arg1
    let value ← readGlobal slot
    push value
    return true
  | .storeGlobal => do
    let slot ← globalSlot arg1
    let value ← pop
    writeGlobal slot value
    return true
  | .add => binary fun a b ↦ normalizeI32 (wrapI64 (a + b))
  | .sub => binary fun a b ↦ normalizeI32 (wrapI64 (a - b))
  | .mul => binary fun a b ↦ normalizeI32 (wrapI64 (a * b))
  | .div => do
    let b ← popInt
    let a ← popInt
    if b = 0 then trap .divideByZero "Division by zero"
    else if a = i64Min ∧ b = -1 then throw .panic
    else
      push (.int (normalizeI32 (a.tdiv b)))
      return true
  | .neg => do
    let a ← popInt
    if a = i64Min then throw .panic
    else
      push (.int (normalizeI32 (-a)))
      return true
  | .eq => binary fun a b ↦ flag (a = b)
  | .ne => binary fun a b ↦ flag (a ≠ b)
  | .lt => binary fun a b ↦ flag (a < b)
  | .gt => binary fun a b ↦ flag (a > b)
  | .le => binary fun a b ↦ flag (a ≤ b)
  | .ge => binary fun a b ↦ flag (a ≥ b)
  | .and => logical (· && ·)
  | .or => logical (· || ·)
  | .not => do
    let a ← pop
    push (.int (flag (!a.isTruthy)))
    return true
  | .print => do
    let value ← popInt
    modify fun vm ↦ { vm with output := vm.output ++ [s!"OUTPUT: {value}"] }
    return true
  | .pop => do
    let _ ← pop
    return true
  | .dup => do
    match (← get).stack with
    | [] => trap .stackUnderflow "Stack underflow on DUP"
    | value :: _ =>
      push value
      return true
  | .jump => do
    modify fun vm ↦ { vm with pc := asUsize arg1 }
    return false
  | .jumpIfFalse => do
    let cond ← pop
    if !cond.isTruthy then
      modify fun vm ↦ { vm with pc := asUsize arg1 }
      return false
    else return true
  | .jumpIfTrue => do
    let cond ← pop
    if cond.isTruthy then
      modify fun vm ↦ { vm with pc := asUsize arg1 }
      return false
    else return true
  | .call => call program arg1 arg2
  | .return => ret
  | .halt => do
    modify fun vm ↦ { vm with callStack := [] }
    return false
  | .arrayLoad => do
    let (base, size) ← globalArrayRange arg1 arg2
    let index ← arrayIndex (← popInt) size
    let value ← match ← readGlobal base with
      | .arrayRef id => loadElement id index
      -- stack-allocated array (legacy path)
      | .int _ => readGlobal (base + index)
    push value
    return true
  | .arrayStore => do
    let (base, size) ← globalArrayRange arg1 arg2
    let value ← popInt
    let index ← arrayIndex (← popInt) size
    match ← readGlobal base with
      | .arrayRef id => storeElement id index value
      | .int _ => writeGlobal (base + index) (.int value)
    return true
  | .localArrayLoad => do
    let base ← currentLocalSlot arg1
    let size ← arraySize arg2
    let index ← arrayIndex (← popInt) size
    let value ← match (← currentFrame).get base with
      | some (.arrayRef id) => loadElement id index
      | some (.int v) => pure (.int v)
      | none => trap .undefinedLocal s!"Undefined local at slot {base}"
    push value
    return true
  | .localArrayStore => do
    let base ← currentLocalSlot arg1
    let size ← arraySize arg2
    let value ← popInt
    let index ← arrayIndex (← popInt) size
    match (← currentFrame).get base with
      | some (.arrayRef id) => storeElement id index value
      | _ => trap .invalidInstruction "Expected array reference"
    return true
  | .allocArray => alloc arg1
  | .arrayNew => alloc arg1

end

/-! ## Runs -/

def makeTrapResult (vm : GcVm) (trapCode : TrapCode) (message : String) : GcVmResult where
  success := false
  returnValue := 0
  trapCode := trapCode
  trapMessage := message
  cycles := vm.cycles
  output := vm.output
  pc := vm.pc
  stackDepth := vm.stack.length
  frameDepth := vm.callStack.length
  gcCollections := vm.gcCollections
  gcObjectsFreed := vm.gcObjectsFreed
  heapArraysAllocated := vm.nextArrayId

def stackAsI64 (vm : GcVm) : List Int := vm.stack.reverse.map GcValue.toI64

/-- The event of the instruction that took `before` to `after`. -/
def recordTrace (before after : GcVm) (instr : Instruction) (outcome : TraceOutcome) : GcVm :=
  { after with trace := after.trace.map fun events ↦ events ++ [{
      cycle := after.cycles
      pc := before.pc
      opcode := instr.opcode.debug
      arg1 := instr.arg1
      arg2 := instr.arg2
      stackBefore := before.stackAsI64
      stackAfter := after.stackAsI64
      frameDepthBefore := before.callStack.length
      frameDepthAfter := after.callStack.length
      nextPc := after.pc
      outcome := outcome }] }

section

variable (program : CompiledProgram)

/-- The end of an iteration of the loop in `run`, after the instruction has been executed. -/
def afterInstruction (before : GcVm) (instr : Instruction) (vm : GcVm) (advance : Bool) :
    GcVm ⊕ (GcVmHalt × GcVm) :=
  let vm := if advance then { vm with pc := vm.pc + 1 } else vm
  if vm.callStack = [] then
    let vm := recordTrace before vm instr .exit
    .inr (.result {
      success := true
      returnValue := (vm.stack.head?.map GcValue.toI64).getD 0
      trapCode := .none
      trapMessage := ""
      cycles := vm.cycles
      output := vm.output
      pc := vm.pc
      stackDepth := vm.stack.tail.length
      frameDepth := vm.callStack.length
      gcCollections := vm.gcCollections
      gcObjectsFreed := vm.gcObjectsFreed
      heapArraysAllocated := vm.nextArrayId }, { vm with stack := vm.stack.tail })
  else .inl (recordTrace before vm instr (if advance then .continue else .jump))

/-- One iteration of the loop in `run`: the next state, or how the run ends and the final state. -/
def step (vm : GcVm) : GcVm ⊕ (GcVmHalt × GcVm) :=
  if vm.maxCycles > 0 ∧ vm.cycles ≥ vm.maxCycles then
    .inr (.result (vm.makeTrapResult .cycleLimit
      s!"Cycle limit exceeded ({vm.maxCycles} cycles)"), vm)
  else
    match program.instructions[vm.pc]? with
    | none =>
      .inr (.result (vm.makeTrapResult .invalidInstruction s!"PC out of bounds: {vm.pc}"), vm)
    | some instr =>
      match (executeInstruction program instr.opcode instr.arg1 instr.arg2).run
          { vm with cycles := vm.cycles + 1 } with
      | .ok advance after => afterInstruction vm instr after advance
      | .error (.trap code message) after =>
        .inr (.result (after.makeTrapResult code message),
          recordTrace vm after instr (.trap code message))
      | .error .panic after => .inr (.panic, after)

/-- Initialize global arrays on the heap; `none` stands for a panic on a slot out of range. -/
def initGlobalArrays : List GlobalInfo → GcVm → Option GcVm
  | [], vm => some vm
  | info :: infos, vm =>
    if info.isArray then
      let (id, vm) := vm.allocArray info.arraySize
      if info.slot < vm.globals.length then
        initGlobalArrays infos { vm with globals := vm.globals.set info.slot (.arrayRef id) }
      else none
    else initGlobalArrays infos vm

/-- `run` up to the main loop: the state it starts in, or how the preflight ends the run. -/
def start (vm : GcVm) : GcVm ⊕ GcVmHalt :=
  match program.validate with
  | .error (code, message) => .inr (.result (vm.makeTrapResult code message))
  | .ok () =>
    match program.functions.lookup program.mainFuncId with
    | none => .inr (.result (vm.makeTrapResult .undefinedFunction "No main function found"))
    | some mainFunc =>
      match initGlobalArrays program.globals.values vm with
      | none => .inr .panic
      | some vm => .inl { vm with
          pc := mainFunc.entryPc
          callStack := GcCallFrame.new mainFunc.localCount usizeMax :: vm.callStack }

/-- `run`, with the state the machine is left in, for at most `fuel` iterations of its loop. -/
def runFull (fuel : Nat) (vm : GcVm) : Option (GcVmHalt × GcVm) :=
  match start program vm with
  | .inr halt => some (halt, vm)
  | .inl vm => Stepping.run (step program) fuel vm

/-- Run the program for at most `fuel` iterations of the loop. -/
def run (fuel : Nat) (vm : GcVm) : Option GcVmHalt := (vm.runFull program fuel).map Prod.fst

end

end GcVm

end MiniLang
