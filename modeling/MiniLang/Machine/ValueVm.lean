import MiniLang.Machine.Vm

/-!
# The value machine

What the two machines of the source compute, without the way either of them stores it. A frame owns
its operands and its variables, and a variable holds its value: nothing, a 32-bit integer, or a whole
array. There are no addresses and no heap. An array that has just been allocated is in nobody's
variable yet; there is at most one, `fresh`, on top of the operands.

The machine takes only steps that well-shaped code asks for. On any other one, such as a read of an
array variable as an operand, a return that leaves operands behind, or an access to a global array
that the metadata does not list, it panics. So a run that does not panic has a meaning that does not
depend on how variables are stored.

The reference machine keeps the variables of all frames in a vector of bounded length, the
garbage-collected one does not. This is the parameter `storage`.
-/

namespace MiniLang

/-- What a local variable holds. -/
inductive LocalValue
  | undefined
  | int (value : Int32)
  | array (data : List Int32)
deriving DecidableEq

structure ValueFrame where
  returnPc : Nat
  /-- The function that the frame is of. -/
  funcId : Nat
  cells : List LocalValue
  operands : List Int32
deriving DecidableEq

structure ValueVm where
  frames : List ValueFrame
  /-- The size of the array that was allocated last, until it is stored. -/
  fresh : Option Nat
  globals : List Int32
  pc : Nat
  cycles : Nat
  maxCycles : Nat
  output : List String
deriving DecidableEq

/-- What follows an instruction. -/
inductive Flow
  | next
  | jump
  | exit (value : Int32)
deriving DecidableEq

/-- `slot` is a global slot that no array takes. -/
def ScalarGlobal (program : CompiledProgram) (slot : Nat) : Prop :=
  slot < maxGlobalSlots ∧ ∀ info ∈ program.globals.values, info.isArray = true →
    slot < info.slot ∨ info.slot + info.arraySize ≤ slot

/-- There is a global array at `slot`, with `size` elements. -/
def ArrayGlobal (program : CompiledProgram) (slot size : Nat) : Prop :=
  ∃ info ∈ program.globals.values, info.isArray = true ∧ info.slot = slot ∧ info.arraySize = size

instance (program : CompiledProgram) (slot : Nat) : Decidable (ScalarGlobal program slot) :=
  inferInstanceAs (Decidable (_ ∧ _))

instance (program : CompiledProgram) (slot size : Nat) :
    Decidable (ArrayGlobal program slot size) :=
  inferInstanceAs (Decidable (∃ info ∈ program.globals.values,
    info.isArray = true ∧ info.slot = slot ∧ info.arraySize = size))

namespace ValueVm

def init (maxCycles : Nat) : ValueVm where
  frames := []
  fresh := none
  globals := List.replicate maxGlobalSlots 0
  pc := 0
  cycles := 0
  maxCycles := maxCycles
  output := []

/-- The integer operands of all frames, top first. -/
def ints (vm : ValueVm) : List Int32 := vm.frames.flatMap ValueFrame.operands

/-- The number of operands, with the fresh array. -/
def operandCount (vm : ValueVm) : Nat := vm.ints.length + vm.fresh.elim 0 fun _ ↦ 1

/-- The variables of all frames, outermost frame first. -/
def cells (vm : ValueVm) : List LocalValue := vm.frames.reverse.flatMap ValueFrame.cells

abbrev ValueVmM := EStateM Stop ValueVm

def trap {α : Type} (code : TrapCode) (message : String) : ValueVmM α := throw (.trap code message)

/-- Give up unless `p` holds. -/
def require (p : Prop) [Decidable p] : ValueVmM Unit := if p then return () else throw .panic

/-! ## Operands and variables -/

def pop : ValueVmM Int32 := do
  require ((← get).fresh = none)
  match (← get).frames with
  | [] => throw .panic
  | frame :: frames =>
    match frame.operands with
    | [] => throw .panic
    | value :: operands => do
      modify fun vm ↦ { vm with frames := { frame with operands := operands } :: frames }
      return value

/-- The top operand, which stays where it is. -/
def top : ValueVmM Int32 := do
  require ((← get).fresh = none)
  match (← get).frames with
  | [] => throw .panic
  | frame :: _ =>
    match frame.operands with
    | [] => throw .panic
    | value :: _ => return value

def push (value : Int32) : ValueVmM Unit := do
  require ((← get).fresh = none)
  if (← get).operandCount ≥ maxOperandStack then
    trap .stackOverflow s!"Operand stack overflow (max {maxOperandStack} entries)"
  else
    match (← get).frames with
    | [] => throw .panic
    | frame :: frames =>
      modify fun vm ↦ { vm with
        frames := { frame with operands := value :: frame.operands } :: frames }

/-- A variable of the current frame. -/
def readCell (rawSlot : Int32) : ValueVmM LocalValue := do
  require (0 ≤ rawSlot)
  match (← get).frames with
  | [] => throw .panic
  | frame :: _ =>
    match frame.cells[asUsize rawSlot]? with
    | none => throw .panic
    | some cell => return cell

def writeCell (rawSlot : Int32) (cell : LocalValue) : ValueVmM Unit := do
  require (0 ≤ rawSlot)
  match (← get).frames with
  | [] => throw .panic
  | frame :: frames => do
    require (asUsize rawSlot < frame.cells.length)
    modify fun vm ↦ { vm with
      frames := { frame with cells := frame.cells.set (asUsize rawSlot) cell } :: frames }

/-- The array in a variable of the current frame, which has to have `size` elements. -/
def readArray (rawSlot : Int32) (size : Nat) : ValueVmM (List Int32) := do
  match ← readCell rawSlot with
  | .array data => do
    require (data.length = size)
    return data
  | _ => throw .panic

def readGlobal (slot : Nat) : ValueVmM Int32 := do
  match (← get).globals[slot]? with
  | none => throw .panic
  | some value => return value

def writeGlobal (slot : Nat) (value : Int32) : ValueVmM Unit :=
  modify fun vm ↦ { vm with globals := vm.globals.set slot value }

def arrayIndex (rawIndex : Int32) (arraySize : Nat) : ValueVmM Nat :=
  if rawIndex.toInt < 0 ∨ rawIndex.toInt.toNat ≥ arraySize then
    trap .arrayOutOfBounds s!"Array index {rawIndex.toInt} out of bounds (size {arraySize})"
  else return rawIndex.toInt.toNat

/-! ## Instructions -/

/-- `if p { 1 } else { 0 }`. -/
def flag (p : Prop) [Decidable p] : Int32 := if p then 1 else 0

def binary (f : Int32 → Int32 → Int32) : ValueVmM Flow := do
  let b ← pop
  let a ← pop
  push (f a b)
  return .next

def unary (f : Int32 → Int32) : ValueVmM Flow := do
  let a ← pop
  push (f a)
  return .next

/-- Pop `count` arguments; the last one popped comes first. -/
def popArgs : Nat → List Int32 → ValueVmM (List Int32)
  | 0, args => return args
  | count + 1, args => do
    let arg ← pop
    popArgs count (arg :: args)

/-- Pop a condition, and go to `target` where it is as `jumpIf` says. -/
def branch (jumpIf : Int32 → Bool) (target : Int32) : ValueVmM Flow := do
  let cond ← pop
  if jumpIf cond then
    modify fun vm ↦ { vm with pc := asUsize target }
    return .jump
  else return .next

def alloc (rawSize : Int32) : ValueVmM Flow := do
  require (0 ≤ rawSize)
  require ((← get).fresh = none ∧ (← get).frames ≠ [])
  if (← get).operandCount ≥ maxOperandStack then
    trap .stackOverflow s!"Operand stack overflow (max {maxOperandStack} entries)"
  else
    modify fun vm ↦ { vm with fresh := some (asUsize rawSize) }
    return .next

/-- The fresh array, or else the top operand, goes into a variable. -/
def storeLocal (rawSlot : Int32) : ValueVmM Flow := do
  match (← get).fresh with
  | some size => do
    writeCell rawSlot (.array (List.replicate size 0))
    modify fun vm ↦ { vm with fresh := none }
    return .next
  | none => do
    let value ← pop
    writeCell rawSlot (.int value)
    return .next

section

variable (program : CompiledProgram) (storage : Option Nat)

def call (arg1 arg2 : Int32) : ValueVmM Flow := do
  require (0 ≤ arg1 ∧ 0 ≤ arg2)
  match program.functions.lookup (asUsize arg1) with
  | none => throw .panic
  | some func => do
    require (asUsize arg2 = func.paramCount ∧ func.paramCount ≤ func.localCount ∧
      (← get).fresh = none)
    if (← get).frames.length ≥ maxFrames then
      trap .stackOverflow s!"Call stack overflow (max {maxFrames} frames)"
    else
      let required := (← get).cells.length + func.localCount
      if storage.elim false (required > ·) then
        trap .stackOverflow
          s!"Local storage overflow (need {required} slots, max {storage.getD 0})"
      else do
        let args ← popArgs func.paramCount []
        modify fun vm ↦ { vm with
          frames := ⟨vm.pc + 1, asUsize arg1, args.map .int ++
            List.replicate (func.localCount - func.paramCount) .undefined, []⟩ :: vm.frames
          pc := func.entryPc }
        return .jump

/-- A return takes the only operand of the frame. -/
def ret : ValueVmM Flow := do
  let value ← pop
  match (← get).frames with
  | [] => throw .panic
  | frame :: frames => do
    require (frame.operands = [])
    modify fun vm ↦ { vm with frames := frames }
    if frames = [] then return .exit value
    else do
      push value
      modify fun vm ↦ { vm with pc := frame.returnPc }
      return .jump

/-- Execute one instruction. -/
def executeInstruction (opcode : Opcode) (arg1 arg2 : Int32) : ValueVmM Flow :=
  match opcode with
  | .loadConst => do
    push arg1
    return .next
  | .loadLocal => do
    match ← readCell arg1 with
    | .undefined => trap .undefinedLocal s!"Undefined local at slot {arg1.toInt}"
    | .int value => do
      push value
      return .next
    | .array _ => throw .panic
  | .storeLocal => storeLocal arg1
  | .loadGlobal => do
    require (0 ≤ arg1 ∧ ScalarGlobal program (asUsize arg1))
    let value ← readGlobal (asUsize arg1)
    push value
    return .next
  | .storeGlobal => do
    require (0 ≤ arg1 ∧ ScalarGlobal program (asUsize arg1))
    let value ← pop
    writeGlobal (asUsize arg1) value
    return .next
  | .add => binary (· + ·)
  | .sub => binary (· - ·)
  | .mul => binary (· * ·)
  | .div => do
    let b ← pop
    let a ← pop
    if b = 0 then trap .divideByZero "Division by zero"
    else do
      push (a / b)
      return .next
  | .neg => unary (- ·)
  | .eq => binary fun a b ↦ flag (a = b)
  | .ne => binary fun a b ↦ flag (a ≠ b)
  | .lt => binary fun a b ↦ flag (a < b)
  | .gt => binary fun a b ↦ flag (a > b)
  | .le => binary fun a b ↦ flag (a ≤ b)
  | .ge => binary fun a b ↦ flag (a ≥ b)
  | .and => binary fun a b ↦ flag (a ≠ 0 ∧ b ≠ 0)
  | .or => binary fun a b ↦ flag (a ≠ 0 ∨ b ≠ 0)
  | .not => unary fun a ↦ flag (a = 0)
  | .jump => do
    modify fun vm ↦ { vm with pc := asUsize arg1 }
    return .jump
  | .jumpIfFalse => branch (· = 0) arg1
  | .jumpIfTrue => branch (· ≠ 0) arg1
  | .call => call program storage arg1 arg2
  | .return => ret
  | .arrayLoad => do
    require (0 ≤ arg1 ∧ 0 ≤ arg2 ∧ ArrayGlobal program (asUsize arg1) (asUsize arg2))
    let index ← arrayIndex (← pop) (asUsize arg2)
    let value ← readGlobal (asUsize arg1 + index)
    push value
    return .next
  | .arrayStore => do
    require (0 ≤ arg1 ∧ 0 ≤ arg2 ∧ ArrayGlobal program (asUsize arg1) (asUsize arg2))
    let value ← pop
    let index ← arrayIndex (← pop) (asUsize arg2)
    writeGlobal (asUsize arg1 + index) value
    return .next
  | .localArrayLoad => do
    require (0 ≤ arg2)
    let _ ← readCell arg1
    let index ← arrayIndex (← pop) (asUsize arg2)
    let data ← readArray arg1 (asUsize arg2)
    push (data[index]?.getD 0)
    return .next
  | .localArrayStore => do
    require (0 ≤ arg2)
    let _ ← readCell arg1
    let value ← pop
    let index ← arrayIndex (← pop) (asUsize arg2)
    let data ← readArray arg1 (asUsize arg2)
    writeCell arg1 (.array (data.set index value))
    return .next
  | .arrayNew | .allocArray => alloc arg1
  | .print => do
    let value ← pop
    modify fun vm ↦ { vm with output := vm.output ++ [s!"OUTPUT: {value.toInt}"] }
    return .next
  | .pop => do
    let _ ← pop
    return .next
  | .dup => do
    let value ← top
    push value
    return .next
  | .halt => throw .panic

end

/-! ## Runs -/

def makeTrapResult (vm : ValueVm) (trapCode : TrapCode) (message : String) : VmResult where
  success := false
  returnValue := 0
  trapCode := trapCode
  trapMessage := message
  cycles := vm.cycles
  output := vm.output
  pc := vm.pc
  stackDepth := vm.operandCount
  frameDepth := vm.frames.length

/-- The result of a run whose last frame returns `value`. -/
def exitResult (vm : ValueVm) (value : Int32) : VmResult where
  success := true
  returnValue := value.toInt
  trapCode := .none
  trapMessage := ""
  cycles := vm.cycles
  output := vm.output
  pc := vm.pc
  stackDepth := 0
  frameDepth := 0

section

variable (program : CompiledProgram) (storage : Option Nat)

/-- What an instruction leads to. -/
def afterInstruction : EStateM.Result Stop ValueVm Flow → ValueVm ⊕ VmHalt
  | .ok .next vm => .inl { vm with pc := vm.pc + 1 }
  | .ok .jump vm => .inl vm
  | .ok (.exit value) vm => .inr (.result (vm.exitResult value))
  | .error (.trap code message) vm => .inr (.result (vm.makeTrapResult code message))
  | .error .panic _ => .inr .panic

/-- One instruction: the next state, or how the run ends. -/
def step (vm : ValueVm) : ValueVm ⊕ VmHalt :=
  if vm.maxCycles > 0 ∧ vm.cycles ≥ vm.maxCycles then
    .inr (.result (vm.makeTrapResult .cycleLimit
      s!"Cycle limit exceeded ({vm.maxCycles} cycles)"))
  else
    match program.instructions[vm.pc]? with
    | none => .inr (.result (vm.makeTrapResult .invalidInstruction s!"PC out of bounds: {vm.pc}"))
    | some instr => afterInstruction
        ((executeInstruction program storage instr.opcode instr.arg1 instr.arg2).run
          { vm with cycles := vm.cycles + 1 })

/-- The state a run starts in, or the trap result of the preflight. -/
def start (vm : ValueVm) : ValueVm ⊕ VmResult :=
  match program.validate with
  | .error (code, message) => .inr (vm.makeTrapResult code message)
  | .ok () =>
    match program.functions.lookup program.mainFuncId with
    | none => .inr (vm.makeTrapResult .undefinedFunction "No main function found")
    | some mainFunc => .inl { vm with
        pc := mainFunc.entryPc
        frames := ⟨usizeMax, program.mainFuncId, List.replicate mainFunc.localCount .undefined, []⟩ ::
          vm.frames }

/-- Run the program for at most `fuel` instructions. -/
def run (fuel : Nat) (vm : ValueVm) : Option VmHalt :=
  match start program vm with
  | .inr result => some (.result result)
  | .inl vm => Stepping.run (step program storage) fuel vm

end

end ValueVm

end MiniLang
