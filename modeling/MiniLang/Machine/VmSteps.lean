import MiniLang.Bytecode.Balance
import MiniLang.Machine.VmRules

/-!
# Steps of the reference machine

What a step does when it executes an instruction whose operands are as the compiler leaves them. The
machine here has no limit of cycles and records no trace. A step may also end the run because the
operand stack, the slots of the locals or the frames run short, which the message of the trap tells,
or because arrays have used up the addresses, which takes some time.

## How a step is stated

`Advances` relates two states by one step, or says that the run from the first one runs short of a
resource. Compiled code pushes far more often than it does anything else, and each push may overflow
the stack; with the shortage as a part of the relation it is discharged once, at the end of a run,
and not at every instruction. Running short is told from other traps by `Resource.Lacking`: the
first two by the text of their messages, the third by the number of cycles it takes to get there.
One frame too many is a trap of its own (`traps_call`): the interpreter of syntax trees counts its
frames as well, and there both sides trap alike.

## The addresses of arrays

The cells of local arrays are never given back, and a variable holds the index of its array as an
`i64`. `CellsBound` says that `n` steps make at most `n * 2 ^ 31` cells more. An index that does not
fit would therefore take more cycles than the bound that `Lacking` names, so that the case can be
told by the cycles of the result and needs no assumption on the sizes of arrays.
-/

namespace MiniLang

open Compiler

namespace Vm

variable {program : CompiledProgram} {vm vm' after : Vm} {instr : Instruction} {value : Int}
  {stack : List Int}

/-! ## Halts of runs -/

/-- The run from `vm` on ends with `result`. -/
def Halts (program : CompiledProgram) (vm : Vm) (result : VmResult) : Prop :=
  ∃ fuel final, Stepping.run (step program) fuel vm = some (.result result, final)

/-- The run from `vm` on ends with a trap. -/
structure Traps (program : CompiledProgram) (vm : Vm) (code : TrapCode) (output : List String)
    (result : VmResult) : Prop where
  ends : Halts program vm result
  success : result.success = false
  returnValue : result.returnValue = 0
  trapCode : result.trapCode = code
  output_eq : result.output = output

/-- What a run may run short of. -/
inductive Resource
  | operands
  | slots
  | addresses
deriving DecidableEq

def Resource.trapCode : Resource → TrapCode
  | .addresses => .invalidInstruction
  | _ => .stackOverflow

/-- What the result tells of the resource. -/
def Resource.Lacking : Resource → VmResult → Prop
  | .operands, result =>
    result.trapMessage = s!"Operand stack overflow (max {maxOperandStack} entries)"
  | .slots, result => ∃ slots : Nat, result.trapMessage =
    s!"Local storage overflow (need {slots} slots, max {maxLocalSlots})"
  | .addresses, result => 2 ^ 32 ≤ result.cycles

/-- The run from `vm` on runs short of a resource within `limit` cycles. -/
def RunsShort (program : CompiledProgram) (limit : Nat) (vm : Vm) : Prop :=
  ∃ (result : VmResult) (resource : Resource) (output : List String),
    Traps program vm resource.trapCode output result ∧ resource.Lacking result ∧
      result.cycles ≤ limit

theorem Halts.of_reaches {result : VmResult} (h : Stepping.Reaches (step program) vm vm')
    (h' : Halts program vm' result) : Halts program vm result := by
  obtain ⟨fuel, final, hrun⟩ := h'
  obtain ⟨t, htrans, hend⟩ := Stepping.exists_reaches_of_run hrun
  obtain ⟨n, hn⟩ := Stepping.exists_run_of_reaches (h.trans htrans) hend
  exact ⟨n, final, hn⟩

theorem Traps.of_reaches {code : TrapCode} {output : List String} {result : VmResult}
    (h : Stepping.Reaches (step program) vm vm') (h' : Traps program vm' code output result) :
    Traps program vm code output result :=
  { h' with ends := h'.ends.of_reaches h }

theorem RunsShort.mono {limit limit' : Nat} (h : RunsShort program limit vm)
    (hle : limit ≤ limit') : RunsShort program limit' vm := by
  obtain ⟨result, resource, output, htraps, hresource, hcycles⟩ := h
  exact ⟨result, resource, output, htraps, hresource, hcycles.trans hle⟩

theorem RunsShort.of_reaches {limit : Nat} (h : Stepping.Reaches (step program) vm vm')
    (h' : RunsShort program limit vm') : RunsShort program limit vm := by
  obtain ⟨result, resource, output, htraps, hresource⟩ := h'
  exact ⟨result, resource, output, htraps.of_reaches h, hresource⟩

/-! ## Steps -/

/-- The machine runs without limit and records nothing. -/
structure Plain (vm : Vm) : Prop where
  unlimited : vm.maxCycles = 0
  untraced : vm.trace = none

/-- The machine is about to execute `instr`. -/
structure Fetches (program : CompiledProgram) (vm : Vm) (instr : Instruction) : Prop where
  plain : Plain vm
  frames : vm.callStack ≠ []
  fetch : program.instructions[vm.pc]? = some instr

/-- The machine steps from `vm` to `vm'`, or it runs short. -/
def Advances (program : CompiledProgram) (vm vm' : Vm) : Prop :=
  step program vm = .inl vm' ∨ RunsShort program (vm.cycles + 1) vm

theorem step_eq (h : Fetches program vm instr) :
    step program vm = match (executeInstruction program instr.opcode instr.arg1 instr.arg2).run
        { vm with cycles := vm.cycles + 1 } with
      | .ok advance after => afterInstruction vm instr after advance
      | .error (.trap code message) after =>
        .inr (.result (after.makeTrapResult code message),
          recordTrace vm after instr (.trap code message))
      | .error .panic after => .inr (.panic, after) := by
  have hlimit : ¬(vm.maxCycles > 0 ∧ vm.cycles ≥ vm.maxCycles) := by
    rw [h.plain.unlimited]
    exact fun h ↦ absurd h.1 (Nat.lt_irrefl 0)
  have hfetch := h.fetch
  refine (if_neg hlimit).trans ?_
  generalize program.instructions[vm.pc]? = fetched at hfetch ⊢
  subst hfetch
  rfl

section

variable (h : Fetches program vm instr)
include h

theorem step_of_ok (advance : Bool) (after : Vm)
    (hexec : (executeInstruction program instr.opcode instr.arg1 instr.arg2).run
      { vm with cycles := vm.cycles + 1 } = .ok advance after)
    (hframes : after.callStack ≠ []) (htrace : after.trace = none) : step program vm =
      .inl (if advance then { after with pc := after.pc + 1 } else after) := by
  rw [step_eq h, hexec]
  dsimp only
  rw [afterInstruction]
  cases advance with
  | true => exact (if_neg hframes).trans (congrArg Sum.inl (recordTrace_eq _ _ _ htrace))
  | false => exact (if_neg hframes).trans (congrArg Sum.inl (recordTrace_eq _ _ _ htrace))

/-- An instruction that traps. -/
theorem traps_of_error {code : TrapCode} {message : String}
    (hexec : (executeInstruction program instr.opcode instr.arg1 instr.arg2).run
      { vm with cycles := vm.cycles + 1 } = .error (.trap code message) after) :
    Traps program vm code after.output (after.makeTrapResult code message) := by
  have hstep : step program vm = .inr (.result (after.makeTrapResult code message),
      recordTrace vm after instr (.trap code message)) := by
    rw [step_eq h, hexec]
  exact ⟨⟨1, _, Stepping.run_of_end hstep⟩, rfl, rfl, rfl, rfl⟩

end

/-- The next instruction ends the run with a trap. -/
def Fails (program : CompiledProgram) (vm : Vm) (code : TrapCode) : Prop :=
  ∃ (instr : Instruction) (message : String) (after : Vm), Fetches program vm instr ∧
    (executeInstruction program instr.opcode instr.arg1 instr.arg2).run
      { vm with cycles := vm.cycles + 1 } = .error (.trap code message) after ∧
    after.output = vm.output ∧ after.cycles = vm.cycles + 1

theorem Fails.traps {code : TrapCode} (h : Fails program vm code) :
    ∃ result, Traps program vm code vm.output result ∧ result.cycles = vm.cycles + 1 := by
  obtain ⟨instr, message, after, hfetch, hexec, houtput, hcycles⟩ := h
  have htraps := traps_of_error hfetch hexec
  rw [houtput] at htraps
  exact ⟨_, htraps, hcycles⟩

/-! ## Instructions without operands in memory -/

/-- The next instruction puts `value` on `stack`. -/
def Puts (program : CompiledProgram) (vm : Vm) (value : Int) (stack : List Int) : Prop :=
  ∃ instr, Fetches program vm instr ∧
    (executeInstruction program instr.opcode instr.arg1 instr.arg2).run
      { vm with cycles := vm.cycles + 1 } = (do push value; return true : VmM Bool).run
        { vm with stack := stack, cycles := vm.cycles + 1 }

/-- An instruction that ends with a push, where there is room. -/
theorem step_of_push (h : Fetches program vm instr) (after : Vm)
    (hexec : (executeInstruction program instr.opcode instr.arg1 instr.arg2).run
      { vm with cycles := vm.cycles + 1 } = (do push value; return true : VmM Bool).run after)
    (hframes : after.callStack ≠ []) (htrace : after.trace = none)
    (hroom : after.stack.length < maxOperandStack) : step program vm =
      .inl { after with stack := value :: after.stack, pc := after.pc + 1 } := by
  rw [EStateM.run_bind, run_push hroom] at hexec
  exact step_of_ok h true _ hexec hframes htrace

/-- An instruction that ends with a push. -/
theorem advances_of_push (h : Fetches program vm instr) (after : Vm)
    (hexec : (executeInstruction program instr.opcode instr.arg1 instr.arg2).run
      { vm with cycles := vm.cycles + 1 } = (do push value; return true : VmM Bool).run after)
    (hframes : after.callStack ≠ []) (htrace : after.trace = none)
    (hcycles : after.cycles = vm.cycles + 1) :
    Advances program vm { after with stack := value :: after.stack, pc := after.pc + 1 } := by
  by_cases hroom : after.stack.length < maxOperandStack
  · exact .inl (step_of_push h after hexec hframes htrace hroom)
  · rw [EStateM.run_bind, run_push_overflow (Nat.not_lt.mp hroom)] at hexec
    exact .inr ⟨_, .operands, _, traps_of_error h hexec, rfl, hcycles.le⟩

theorem Puts.step (h : Puts program vm value stack)
    (hroom : stack.length < maxOperandStack) : Vm.step program vm =
      .inl { vm with stack := value :: stack, pc := vm.pc + 1, cycles := vm.cycles + 1 } := by
  obtain ⟨instr, hfetch, hexec⟩ := h
  exact step_of_push hfetch _ hexec hfetch.frames hfetch.plain.untraced hroom

theorem Puts.advances (h : Puts program vm value stack) : Advances program vm
    { vm with stack := value :: stack, pc := vm.pc + 1, cycles := vm.cycles + 1 } := by
  obtain ⟨instr, hfetch, hexec⟩ := h
  exact advances_of_push hfetch _ hexec hfetch.frames hfetch.plain.untraced rfl

variable {arg1 arg2 : Int32}

theorem puts_loadConst (h : Fetches program vm ⟨.loadConst, arg1, arg2⟩) :
    Puts program vm arg1.toInt vm.stack :=
  ⟨_, h, rfl⟩

theorem puts_neg (h : Fetches program vm ⟨.neg, arg1, arg2⟩)
    (hstack : vm.stack = value :: stack) (hvalue : value ≠ i64Min) :
    Puts program vm (normalizeI32 (-value)) stack := by
  refine ⟨_, h, ?_⟩
  rw [executeInstruction, EStateM.run_bind, run_pop (by exact hstack)]
  dsimp only
  rw [if_neg hvalue]

theorem puts_not (h : Fetches program vm ⟨.not, arg1, arg2⟩)
    (hstack : vm.stack = value :: stack) : Puts program vm (flag (value = 0)) stack := by
  refine ⟨_, h, ?_⟩
  rw [executeInstruction, EStateM.run_bind, run_pop (by exact hstack)]

theorem puts_binary {a b : Int} {f : Int → Int → Int}
    (h : Fetches program vm instr) (hstack : vm.stack = b :: a :: stack)
    (hexec : executeInstruction program instr.opcode instr.arg1 instr.arg2 = binary f) :
    Puts program vm (f a b) stack := by
  refine ⟨_, h, ?_⟩
  rw [hexec, binary, EStateM.run_bind, run_pop (by exact hstack)]
  dsimp only
  rw [EStateM.run_bind, @run_pop _ a stack rfl]

theorem puts_div {a b : Int}
    (h : Fetches program vm ⟨.div, arg1, arg2⟩) (hstack : vm.stack = b :: a :: stack)
    (hb : b ≠ 0) (ha : a ≠ i64Min) : Puts program vm (normalizeI32 (a.tdiv b)) stack := by
  refine ⟨_, h, ?_⟩
  rw [executeInstruction, EStateM.run_bind, run_pop (by exact hstack)]
  dsimp only
  rw [EStateM.run_bind, @run_pop _ a stack rfl]
  dsimp only
  rw [if_neg hb, if_neg fun h ↦ ha h.1]

theorem fails_div {a : Int} (h : Fetches program vm ⟨.div, arg1, arg2⟩)
    (hstack : vm.stack = 0 :: a :: stack) :
    Fails program vm .divideByZero := by
  have hexec : (executeInstruction program .div arg1 arg2).run { vm with cycles := vm.cycles + 1 } =
      .error (.trap .divideByZero "Division by zero")
        { vm with stack := stack, cycles := vm.cycles + 1 } := by
    rw [executeInstruction, EStateM.run_bind, run_pop (by exact hstack)]
    dsimp only
    rw [EStateM.run_bind, @run_pop _ a stack rfl]
    rfl
  exact ⟨_, _, _, h, hexec, rfl, rfl⟩

theorem step_jump (h : Fetches program vm ⟨.jump, arg1, arg2⟩) : step program vm =
    .inl { vm with pc := asUsize arg1, cycles := vm.cycles + 1 } :=
  step_of_ok h false _ rfl h.frames h.plain.untraced

theorem step_jumpIfFalse (h : Fetches program vm ⟨.jumpIfFalse, arg1, arg2⟩)
    (hstack : vm.stack = value :: stack) : step program vm = .inl { vm with
      stack := stack
      pc := if value = 0 then asUsize arg1 else vm.pc + 1
      cycles := vm.cycles + 1 } := by
  by_cases hvalue : value = 0
  · rw [if_pos hvalue]
    refine step_of_ok h false _ ?_ h.frames h.plain.untraced
    rw [executeInstruction, EStateM.run_bind, run_pop (by exact hstack)]
    dsimp only
    rw [if_pos hvalue]
    rfl
  · rw [if_neg hvalue]
    refine step_of_ok h true
      { vm with stack := stack, cycles := vm.cycles + 1 } ?_ h.frames h.plain.untraced
    rw [executeInstruction, EStateM.run_bind, run_pop (by exact hstack)]
    dsimp only
    rw [if_neg hvalue]
    rfl

theorem step_jumpIfTrue (h : Fetches program vm ⟨.jumpIfTrue, arg1, arg2⟩)
    (hstack : vm.stack = value :: stack) : step program vm = .inl { vm with
      stack := stack
      pc := if value = 0 then vm.pc + 1 else asUsize arg1
      cycles := vm.cycles + 1 } := by
  by_cases hvalue : value = 0
  · rw [if_pos hvalue]
    refine step_of_ok h true
      { vm with stack := stack, cycles := vm.cycles + 1 } ?_ h.frames h.plain.untraced
    rw [executeInstruction, EStateM.run_bind, run_pop (by exact hstack)]
    dsimp only
    rw [if_neg (not_not.mpr hvalue)]
    rfl
  · rw [if_neg hvalue]
    refine step_of_ok h false _ ?_ h.frames h.plain.untraced
    rw [executeInstruction, EStateM.run_bind, run_pop (by exact hstack)]
    dsimp only
    rw [if_pos hvalue]
    rfl

theorem step_pop (h : Fetches program vm ⟨.pop, arg1, arg2⟩) (hstack : vm.stack = value :: stack) :
    step program vm =
      .inl { vm with stack := stack, pc := vm.pc + 1, cycles := vm.cycles + 1 } := by
  refine step_of_ok h true
    { vm with stack := stack, cycles := vm.cycles + 1 } ?_ h.frames h.plain.untraced
  rw [executeInstruction, EStateM.run_bind, run_pop (by exact hstack)]
  rfl

theorem step_print (h : Fetches program vm ⟨.print, arg1, arg2⟩)
    (hstack : vm.stack = value :: stack) : step program vm = .inl { vm with
      stack := stack
      output := vm.output ++ [s!"OUTPUT: {value}"]
      pc := vm.pc + 1
      cycles := vm.cycles + 1 } := by
  refine step_of_ok h true { vm with
    stack := stack
    output := vm.output ++ [s!"OUTPUT: {value}"]
    cycles := vm.cycles + 1 } ?_ h.frames h.plain.untraced
  rw [executeInstruction, EStateM.run_bind, run_pop (by exact hstack)]
  rfl

/-! ## Local slots -/

/-- The innermost frame has `count` local slots, from `base` on. -/
structure Current (program : CompiledProgram) (callStack : List CallFrame) (base count : Nat) :
    Prop where
  frame : ∃ frame frames func, callStack = frame :: frames ∧ frame.basePtr = base ∧
    program.functions.lookup frame.funcId = some func ∧ func.localCount = count
  limit : base + count ≤ maxLocalSlots

variable {base count slot size : Nat}

theorem Current.run_slot (h : Current program vm.callStack base count) (hslot : slot < count) :
    (currentLocalSlot program (asI32 slot)).run vm = .ok (base + slot) vm := by
  obtain ⟨⟨frame, frames, func, hframes, rfl, hfunc, rfl⟩, hlimit⟩ := h
  have hmax : maxLocalSlots = 1024 := rfl
  have hlt : slot < 2 ^ 31 := by omega
  rw [run_currentLocalSlot (asI32_nonneg hlt) hframes hfunc] <;> rw [asUsize_asI32 hlt]
  · exact hslot
  · omega

theorem puts_loadLocal
    (h : Fetches program vm ⟨.loadLocal, asI32 slot, arg2⟩)
    (hcurrent : Current program vm.callStack base count) (hslot : slot < count)
    (hvalue : vm.locals[base + slot]? = some value) (hdefined : value ≠ i64Min) :
    Puts program vm value vm.stack := by
  refine ⟨_, h, ?_⟩
  rw [executeInstruction, EStateM.run_bind, Current.run_slot (by exact hcurrent) hslot]
  dsimp only
  rw [EStateM.run_bind, run_readLocal (by exact hvalue)]
  dsimp only
  rw [if_neg hdefined]

theorem fails_loadLocal (h : Fetches program vm ⟨.loadLocal, asI32 slot, arg2⟩)
    (hcurrent : Current program vm.callStack base count) (hslot : slot < count)
    (hvalue : vm.locals[base + slot]? = some i64Min) : Fails program vm .undefinedLocal := by
  have hexec : (executeInstruction program .loadLocal (asI32 slot) arg2).run
      { vm with cycles := vm.cycles + 1 } = .error (.trap .undefinedLocal
        s!"Undefined local at slot {(asI32 slot).toInt}") { vm with cycles := vm.cycles + 1 } := by
    rw [executeInstruction, EStateM.run_bind, Current.run_slot (by exact hcurrent) hslot]
    dsimp only
    rw [EStateM.run_bind, run_readLocal (by exact hvalue)]
    rfl
  exact ⟨_, _, _, h, hexec, rfl, rfl⟩

theorem step_storeLocal (h : Fetches program vm ⟨.storeLocal, asI32 slot, arg2⟩)
    (hstack : vm.stack = value :: stack) (hcurrent : Current program vm.callStack base count)
    (hslot : slot < count) (hcells : base + slot < vm.locals.length) :
    step program vm = .inl { vm with
      stack := stack
      locals := vm.locals.set (base + slot) value
      pc := vm.pc + 1
      cycles := vm.cycles + 1 } := by
  refine step_of_ok h true { vm with
    stack := stack
    locals := vm.locals.set (base + slot) value
    cycles := vm.cycles + 1 } ?_ h.frames h.plain.untraced
  rw [executeInstruction, EStateM.run_bind, run_pop (by exact hstack)]
  dsimp only
  rw [EStateM.run_bind, Current.run_slot (by exact hcurrent) hslot]
  dsimp only
  rw [EStateM.run_bind, run_writeLocal (by exact hcells)]
  rfl

/-! ## Globals -/

theorem run_globalSlot_asI32 (hglobals : vm.globals.length = maxGlobalSlots)
    (hslot : slot < maxGlobalSlots) : (globalSlot (asI32 slot)).run vm = .ok slot vm := by
  have hmax : maxGlobalSlots = 256 := rfl
  have hlt : slot < 2 ^ 31 := by omega
  rw [run_globalSlot (asI32_nonneg hlt)] <;> rw [asUsize_asI32 hlt]
  rw [hglobals]
  exact hslot

theorem puts_loadGlobal
    (h : Fetches program vm ⟨.loadGlobal, asI32 slot, arg2⟩)
    (hglobals : vm.globals.length = maxGlobalSlots) (hslot : slot < maxGlobalSlots)
    (hvalue : vm.globals[slot]? = some value) : Puts program vm value vm.stack := by
  refine ⟨_, h, ?_⟩
  rw [executeInstruction, EStateM.run_bind, run_globalSlot_asI32 (by exact hglobals) hslot]
  dsimp only
  rw [EStateM.run_bind, run_readGlobal (by exact hvalue)]

theorem step_storeGlobal (h : Fetches program vm ⟨.storeGlobal, asI32 slot, arg2⟩)
    (hstack : vm.stack = value :: stack) (hglobals : vm.globals.length = maxGlobalSlots)
    (hslot : slot < maxGlobalSlots) : step program vm = .inl { vm with
      stack := stack
      globals := vm.globals.set slot value
      pc := vm.pc + 1
      cycles := vm.cycles + 1 } := by
  refine step_of_ok h true { vm with
    stack := stack
    globals := vm.globals.set slot value
    cycles := vm.cycles + 1 } ?_ h.frames h.plain.untraced
  rw [executeInstruction, EStateM.run_bind, run_globalSlot_asI32 (by exact hglobals) hslot]
  dsimp only
  rw [EStateM.run_bind, run_pop (by exact hstack)]
  dsimp only
  rw [EStateM.run_bind, run_writeGlobal (by exact hglobals ▸ hslot)]
  rfl

/-! ## Array elements -/

/-- An index within the bounds of an array. -/
structure InBounds (index : Int) (size : Nat) : Prop where
  nonneg : 0 ≤ index
  lt : index.toNat < size

theorem InBounds.run {index : Int} (h : InBounds index size) :
    (arrayIndex index size).run vm = .ok index.toNat vm := run_arrayIndex h.nonneg h.lt

theorem run_arrayIndex_of_not {index : Int} (h : ¬InBounds index size) :
    (arrayIndex index size).run vm =
      .error (.trap .arrayOutOfBounds s!"Array index {index} out of bounds (size {size})") vm := by
  refine run_arrayIndex_error ?_
  by_contra hin
  rw [not_or, not_lt, ge_iff_le, not_le] at hin
  exact h ⟨hin.1, hin.2⟩

/-- An array among the globals. -/
structure GlobalArray (globals : List Int) (slot size : Nat) : Prop where
  globals : globals.length = maxGlobalSlots
  pos : 0 < size
  le : slot + size ≤ maxGlobalSlots

theorem GlobalArray.run (h : GlobalArray vm.globals slot size) :
    (globalArrayRange (asI32 slot) (asI32 size)).run vm = .ok (slot, size) vm := by
  obtain ⟨hglobals, hpos, hle⟩ := h
  have hmax : maxGlobalSlots = 256 := rfl
  have hslot : slot < 2 ^ 31 := by omega
  have hsize : size < 2 ^ 31 := by omega
  rw [run_globalArrayRange (asI32_nonneg hslot) (asI32_nonneg hsize)]
  · rw [asUsize_asI32 hslot, asUsize_asI32 hsize]
  · rw [asUsize_asI32 hslot, hglobals]
    omega
  · rw [asUsize_asI32 hslot, asUsize_asI32 hsize, hglobals]
    exact hle
  · rw [hglobals]
    decide

theorem puts_arrayLoad {index : Int}
    (h : Fetches program vm ⟨.arrayLoad, asI32 slot, asI32 size⟩)
    (hstack : vm.stack = index :: stack) (harray : GlobalArray vm.globals slot size)
    (hindex : InBounds index size) (hvalue : vm.globals[slot + index.toNat]? = some value) :
    Puts program vm value stack := by
  refine ⟨_, h, ?_⟩
  rw [executeInstruction, EStateM.run_bind, GlobalArray.run (by exact harray)]
  dsimp only
  rw [EStateM.run_bind, run_pop (by exact hstack)]
  dsimp only
  rw [EStateM.run_bind, hindex.run]
  dsimp only
  rw [EStateM.run_bind, run_readGlobal (by exact hvalue)]

theorem fails_arrayLoad {index : Int} (h : Fetches program vm ⟨.arrayLoad, asI32 slot, asI32 size⟩)
    (hstack : vm.stack = index :: stack) (harray : GlobalArray vm.globals slot size)
    (hindex : ¬InBounds index size) : Fails program vm .arrayOutOfBounds := by
  have hexec : (executeInstruction program .arrayLoad (asI32 slot) (asI32 size)).run
      { vm with cycles := vm.cycles + 1 } = .error (.trap .arrayOutOfBounds
        s!"Array index {index} out of bounds (size {size})")
        { vm with stack := stack, cycles := vm.cycles + 1 } := by
    rw [executeInstruction, EStateM.run_bind, GlobalArray.run (by exact harray)]
    dsimp only
    rw [EStateM.run_bind, run_pop (by exact hstack)]
    dsimp only
    rw [EStateM.run_bind, run_arrayIndex_of_not hindex]
  exact ⟨_, _, _, h, hexec, rfl, rfl⟩

theorem step_arrayStore {index : Int}
    (h : Fetches program vm ⟨.arrayStore, asI32 slot, asI32 size⟩)
    (hstack : vm.stack = value :: index :: stack) (harray : GlobalArray vm.globals slot size)
    (hindex : InBounds index size) : step program vm = .inl { vm with
      stack := stack
      globals := vm.globals.set (slot + index.toNat) value
      pc := vm.pc + 1
      cycles := vm.cycles + 1 } := by
  refine step_of_ok h true { vm with
    stack := stack
    globals := vm.globals.set (slot + index.toNat) value
    cycles := vm.cycles + 1 } ?_ h.frames h.plain.untraced
  rw [executeInstruction, EStateM.run_bind, GlobalArray.run (by exact harray)]
  dsimp only
  rw [EStateM.run_bind, run_pop (by exact hstack)]
  dsimp only
  rw [EStateM.run_bind, @run_pop _ index stack rfl]
  dsimp only
  rw [EStateM.run_bind, hindex.run]
  dsimp only
  rw [EStateM.run_bind, run_writeGlobal]
  · rfl
  · have hlt := hindex.lt
    have hle := harray.le
    rw [show _ = _ from harray.globals]
    omega

theorem fails_arrayStore {index : Int}
    (h : Fetches program vm ⟨.arrayStore, asI32 slot, asI32 size⟩)
    (hstack : vm.stack = value :: index :: stack) (harray : GlobalArray vm.globals slot size)
    (hindex : ¬InBounds index size) : Fails program vm .arrayOutOfBounds := by
  have hexec : (executeInstruction program .arrayStore (asI32 slot) (asI32 size)).run
      { vm with cycles := vm.cycles + 1 } = .error (.trap .arrayOutOfBounds
        s!"Array index {index} out of bounds (size {size})")
        { vm with stack := stack, cycles := vm.cycles + 1 } := by
    rw [executeInstruction, EStateM.run_bind, GlobalArray.run (by exact harray)]
    dsimp only
    rw [EStateM.run_bind, run_pop (by exact hstack)]
    dsimp only
    rw [EStateM.run_bind, @run_pop _ index stack rfl]
    dsimp only
    rw [EStateM.run_bind, run_arrayIndex_of_not hindex]
  exact ⟨_, _, _, h, hexec, rfl, rfl⟩

/-- A cell that names an array of `size` cells, from `first` on. -/
structure LocalArray (locals : List Int) (cell size first : Nat) : Prop where
  size_lt : size < 2 ^ 31
  reference : locals[cell]? = some (first : Int)
  le : first + size ≤ locals.length

theorem LocalArray.run {cell first : Nat} (h : LocalArray vm.locals cell size first)
    (hlimit : first + size ≤ usizeMax) : (localArrayBase cell size).run vm = .ok first vm := by
  rw [localArrayBase, EStateM.run_bind, run_readLocal h.reference]
  dsimp only
  rw [if_neg (natCast_ne_i64Min first), if_neg (Int.not_lt.mpr (Int.natCast_nonneg first)),
    Int.toNat_natCast, checkedAdd_eq hlimit]
  simp [Nat.not_lt.mpr h.le]

theorem LocalArray.run_overflow {cell first : Nat} (h : LocalArray vm.locals cell size first)
    (hlimit : ¬first + size ≤ usizeMax) : (localArrayBase cell size).run vm =
      .error (.trap .invalidInstruction "Local array range overflow") vm := by
  rw [localArrayBase, EStateM.run_bind, run_readLocal h.reference]
  dsimp only
  rw [if_neg (natCast_ne_i64Min first), if_neg (Int.not_lt.mpr (Int.natCast_nonneg first)),
    Int.toNat_natCast, checkedAdd, if_neg hlimit]
  rfl

/-- The cells there may be after a number of steps. -/
def CellsBound (vm : Vm) : Prop := vm.locals.length ≤ maxLocalSlots + vm.cycles * 2 ^ 31

theorem CellsBound.mono (h : CellsBound vm) (hlength : vm'.locals.length ≤ vm.locals.length)
    (hcycles : vm.cycles ≤ vm'.cycles) : CellsBound vm' :=
  hlength.trans (h.trans (Nat.add_le_add_left (Nat.mul_le_mul_right _ hcycles) _))

theorem CellsBound.grow (h : CellsBound vm) (hlength : vm'.locals.length < vm.locals.length + 2 ^ 31)
    (hcycles : vm.cycles < vm'.cycles) : CellsBound vm' := by
  have hmul : (vm.cycles + 1) * 2 ^ 31 ≤ vm'.cycles * 2 ^ 31 := Nat.mul_le_mul_right _ hcycles
  rw [CellsBound] at h ⊢
  rw [Nat.add_mul, Nat.one_mul] at hmul
  omega

theorem LocalArray.cycles_ge {cell first : Nat} (h : LocalArray vm.locals cell size first)
    (hbound : CellsBound vm) (hlimit : ¬first + size ≤ usizeMax) : 2 ^ 32 ≤ vm.cycles + 1 := by
  have hle := h.le
  rw [CellsBound, show maxLocalSlots = 1024 from rfl] at hbound
  rw [usizeMax] at hlimit
  omega

theorem run_localArrayLoad {index : Int} {first : Nat} (arg1 : Int32)
    (hstack : vm.stack = index :: stack) (hcurrent : Current program vm.callStack base count)
    (hslot : slot < count) (harg : arg1 = asI32 slot)
    (harray : LocalArray vm.locals (base + slot) size first) (hindex : InBounds index size) :
    (executeInstruction program .localArrayLoad arg1 (asI32 size)).run vm = (do
      let arrayBase ← localArrayBase (base + slot) size
      let value ← readLocal (arrayBase + index.toNat)
      push value
      return true : VmM Bool).run { vm with stack := stack } := by
  subst harg
  rw [executeInstruction, EStateM.run_bind, run_arraySize (asI32_nonneg harray.size_lt)]
  dsimp only
  rw [EStateM.run_bind, run_pop (by exact hstack)]
  dsimp only
  rw [asUsize_asI32 harray.size_lt, EStateM.run_bind, hindex.run]
  dsimp only
  rw [EStateM.run_bind, Current.run_slot (by exact hcurrent) hslot]

theorem puts_localArrayLoad {index : Int} {first : Nat}
    (h : Fetches program vm ⟨.localArrayLoad, asI32 slot, asI32 size⟩)
    (hstack : vm.stack = index :: stack) (hcurrent : Current program vm.callStack base count)
    (hslot : slot < count) (harray : LocalArray vm.locals (base + slot) size first)
    (hindex : InBounds index size) (hvalue : vm.locals[first + index.toNat]? = some value)
    (hlimit : first + size ≤ usizeMax) : Puts program vm value stack := by
  refine ⟨_, h, ?_⟩
  rw [run_localArrayLoad _ (by exact hstack) (by exact hcurrent) hslot rfl (by exact harray)
    hindex, EStateM.run_bind, LocalArray.run (by exact harray) hlimit]
  dsimp only
  rw [EStateM.run_bind, run_readLocal (by exact hvalue)]

theorem advances_localArrayLoad {index : Int} {first : Nat}
    (h : Fetches program vm ⟨.localArrayLoad, asI32 slot, asI32 size⟩)
    (hstack : vm.stack = index :: stack) (hcurrent : Current program vm.callStack base count)
    (hslot : slot < count) (harray : LocalArray vm.locals (base + slot) size first)
    (hindex : InBounds index size) (hvalue : vm.locals[first + index.toNat]? = some value)
    (hbound : CellsBound vm) : Advances program vm
      { vm with stack := value :: stack, pc := vm.pc + 1, cycles := vm.cycles + 1 } := by
  by_cases hlimit : first + size ≤ usizeMax
  · exact (puts_localArrayLoad h hstack hcurrent hslot harray hindex hvalue hlimit).advances
  · have hexec := @run_localArrayLoad program { vm with cycles := vm.cycles + 1 } _ _ _ _ _ _ _ _
      (by exact hstack) (by exact hcurrent) hslot rfl (by exact harray) hindex
    rw [EStateM.run_bind, LocalArray.run_overflow (by exact harray) hlimit] at hexec
    exact .inr ⟨_, .addresses, _, traps_of_error h hexec,
      harray.cycles_ge hbound hlimit, le_rfl⟩

theorem fails_localArrayLoad {index : Int}
    (h : Fetches program vm ⟨.localArrayLoad, asI32 slot, asI32 size⟩)
    (hstack : vm.stack = index :: stack) (hsize : size < 2 ^ 31)
    (hindex : ¬InBounds index size) : Fails program vm .arrayOutOfBounds := by
  have hexec : (executeInstruction program .localArrayLoad (asI32 slot) (asI32 size)).run
      { vm with cycles := vm.cycles + 1 } = .error (.trap .arrayOutOfBounds
        s!"Array index {index} out of bounds (size {size})")
        { vm with stack := stack, cycles := vm.cycles + 1 } := by
    rw [executeInstruction, EStateM.run_bind, run_arraySize (asI32_nonneg hsize)]
    dsimp only
    rw [EStateM.run_bind, run_pop (by exact hstack)]
    dsimp only
    rw [asUsize_asI32 hsize, EStateM.run_bind, run_arrayIndex_of_not hindex]
  exact ⟨_, _, _, h, hexec, rfl, rfl⟩

theorem advances_localArrayStore {index : Int} {first : Nat}
    (h : Fetches program vm ⟨.localArrayStore, asI32 slot, asI32 size⟩)
    (hstack : vm.stack = value :: index :: stack)
    (hcurrent : Current program vm.callStack base count)
    (hslot : slot < count) (harray : LocalArray vm.locals (base + slot) size first)
    (hindex : InBounds index size) (hbound : CellsBound vm) :
    Advances program vm { vm with
      stack := stack
      locals := vm.locals.set (first + index.toNat) value
      pc := vm.pc + 1
      cycles := vm.cycles + 1 } := by
  have hexec : (executeInstruction program .localArrayStore (asI32 slot) (asI32 size)).run
      { vm with cycles := vm.cycles + 1 } = (do
        let arrayBase ← localArrayBase (base + slot) size
        writeLocal (arrayBase + index.toNat) value
        return true : VmM Bool).run { vm with stack := stack, cycles := vm.cycles + 1 } := by
    rw [executeInstruction, EStateM.run_bind, run_arraySize (asI32_nonneg harray.size_lt)]
    dsimp only
    rw [EStateM.run_bind, run_pop (by exact hstack)]
    dsimp only
    rw [EStateM.run_bind, @run_pop _ index stack rfl]
    dsimp only
    rw [asUsize_asI32 harray.size_lt, EStateM.run_bind, hindex.run]
    dsimp only
    rw [EStateM.run_bind, Current.run_slot (by exact hcurrent) hslot]
  by_cases hlimit : first + size ≤ usizeMax
  · refine .inl (step_of_ok h true { vm with
      stack := stack
      locals := vm.locals.set (first + index.toNat) value
      cycles := vm.cycles + 1 } ?_ h.frames h.plain.untraced)
    rw [hexec, EStateM.run_bind, LocalArray.run (by exact harray) hlimit]
    dsimp only
    rw [EStateM.run_bind, run_writeLocal]
    · rfl
    · exact Nat.lt_of_lt_of_le (Nat.add_lt_add_left hindex.lt first) harray.le
  · rw [EStateM.run_bind, LocalArray.run_overflow (by exact harray) hlimit] at hexec
    exact .inr ⟨_, .addresses, _, traps_of_error h hexec,
      harray.cycles_ge hbound hlimit, le_rfl⟩

theorem fails_localArrayStore {index : Int}
    (h : Fetches program vm ⟨.localArrayStore, asI32 slot, asI32 size⟩)
    (hstack : vm.stack = value :: index :: stack) (hsize : size < 2 ^ 31)
    (hindex : ¬InBounds index size) : Fails program vm .arrayOutOfBounds := by
  have hexec : (executeInstruction program .localArrayStore (asI32 slot) (asI32 size)).run
      { vm with cycles := vm.cycles + 1 } = .error (.trap .arrayOutOfBounds
        s!"Array index {index} out of bounds (size {size})")
        { vm with stack := stack, cycles := vm.cycles + 1 } := by
    rw [executeInstruction, EStateM.run_bind, run_arraySize (asI32_nonneg hsize)]
    dsimp only
    rw [EStateM.run_bind, run_pop (by exact hstack)]
    dsimp only
    rw [EStateM.run_bind, @run_pop _ index stack rfl]
    dsimp only
    rw [asUsize_asI32 hsize, EStateM.run_bind, run_arrayIndex_of_not hindex]
  exact ⟨_, _, _, h, hexec, rfl, rfl⟩

theorem advances_allocArray (hsize : size < 2 ^ 31)
    (h : Fetches program vm ⟨.allocArray, asI32 size, arg2⟩) : Advances program vm
      { vm with
        stack := (vm.locals.length : Int) :: vm.stack
        locals := vm.locals ++ List.replicate size 0
        pc := vm.pc + 1
        cycles := vm.cycles + 1 } := by
  refine advances_of_push h { vm with
    locals := vm.locals ++ List.replicate size 0
    cycles := vm.cycles + 1 } ?_ h.frames h.plain.untraced rfl
  rw [executeInstruction, EStateM.run_bind, run_arraySize (asI32_nonneg hsize)]
  dsimp only
  rw [asUsize_asI32 hsize]
  rfl

/-! ## Calls and returns -/

/-- The cells after a call: the arguments and the marks in the slots of the callee. -/
structure Entered (locals locals' : List Int) (base : Nat) (args : List Int) (count : Nat) :
    Prop where
  length : locals'.length = locals.length
  given : ∀ i value, args[i]? = some value → locals'[base + i]? = some value
  rest : ∀ i, args.length ≤ i → i < count → locals'[base + i]? = some i64Min
  outside : ∀ cell, cell < base ∨ base + count ≤ cell → locals'[cell]? = locals[cell]?

/-- The arguments are popped, the last one first. -/
theorem run_copyArgs (values : List Int) (hstack : vm.stack = values ++ stack)
    (hcells : base + values.length ≤ vm.locals.length) : ∃ locals',
      (copyArgs base values.length).run vm =
        .ok () { vm with stack := stack, locals := locals' } ∧
      locals'.length = vm.locals.length ∧
      (∀ i value, values.reverse[i]? = some value → locals'[base + i]? = some value) ∧
      ∀ cell, cell < base ∨ base + values.length ≤ cell → locals'[cell]? = vm.locals[cell]? := by
  induction values generalizing vm with
  | nil =>
    refine ⟨vm.locals, ?_, rfl, fun i value h ↦ ?_, fun _ _ ↦ rfl⟩
    · rw [show stack = vm.stack from hstack.symm]
      rfl
    · rw [List.reverse_nil, List.getElem?_nil] at h
      cases h
  | cons arg values ih =>
    rw [List.length_cons] at hcells ⊢
    -- the top operand is the last argument and goes to the last slot
    obtain ⟨locals', hrun, hlength, hargs, houtside⟩ := @ih { vm with
        stack := values ++ stack
        locals := vm.locals.set (base + values.length) arg } rfl (by
      dsimp only
      rw [List.length_set]
      omega)
    refine ⟨locals', ?_, ?_, ?_, ?_⟩
    · rw [copyArgs, EStateM.run_bind, run_pop (by exact hstack)]
      dsimp only
      rw [EStateM.run_bind, run_writeLocal (by dsimp only; omega)]
      exact hrun
    · rw [hlength, List.length_set]
    · intro i value h
      rw [List.reverse_cons] at h
      by_cases hi : i < values.length
      · rw [List.getElem?_append_left (by rwa [List.length_reverse])] at h
        exact hargs i value h
      · rw [List.getElem?_append_right (by rw [List.length_reverse]; omega),
          List.length_reverse] at h
        obtain ⟨hi', hvalue⟩ := List.getElem?_eq_some_iff.mp h
        obtain rfl : i = values.length := by
          rw [List.length_singleton] at hi'
          omega
        rw [List.getElem_singleton] at hvalue
        rw [houtside _ (.inr le_rfl), List.getElem?_set_self (by omega), hvalue]
    · intro cell hcell
      rw [houtside cell (by omega)]
      exact List.getElem?_set_ne (by omega)

theorem run_clearLocals {first : Nat} (n : Nat) (hcells : base + first + n ≤ vm.locals.length) :
    ∃ locals', (clearLocals base first n).run vm = .ok () { vm with locals := locals' } ∧
      locals'.length = vm.locals.length ∧
      (∀ i, first ≤ i → i < first + n → locals'[base + i]? = some i64Min) ∧
      ∀ cell, cell < base + first ∨ base + first + n ≤ cell →
        locals'[cell]? = vm.locals[cell]? := by
  induction n generalizing first vm with
  | zero => exact ⟨vm.locals, rfl, rfl, fun i h h' ↦ by omega, fun _ _ ↦ rfl⟩
  | succ n ih =>
    obtain ⟨locals', hrun, hlength, hmarks, houtside⟩ := @ih { vm with
        locals := vm.locals.set (base + first) i64Min } (first + 1) (by
      dsimp only
      rw [List.length_set]
      omega)
    refine ⟨locals', ?_, ?_, ?_, ?_⟩
    · rw [clearLocals, EStateM.run_bind, run_writeLocal (by omega)]
      exact hrun
    · rw [hlength, List.length_set]
    · intro i hi hi'
      rcases Nat.eq_or_lt_of_le hi with rfl | hlt
      · rw [houtside _ (.inl (by omega)), List.getElem?_set_self (by omega)]
      · exact hmarks i hlt (by omega)
    · intro cell hcell
      rw [houtside cell (by omega)]
      exact List.getElem?_set_ne (by omega)

theorem exists_entered {args : List Int} {newBase : Nat}
    (hstack : vm.stack = args.reverse ++ stack) (hcount : args.length ≤ count)
    (hcells : newBase + count ≤ vm.locals.length) : ∃ locals',
      Entered vm.locals locals' newBase args count ∧
      (do copyArgs newBase args.length; clearLocals newBase args.length (count - args.length) :
        VmM Unit).run vm = .ok () { vm with stack := stack, locals := locals' } := by
  obtain ⟨locals₁, hrun₁, hlength₁, hargs₁, houtside₁⟩ := @run_copyArgs vm stack newBase
    args.reverse hstack (by rw [List.length_reverse]; omega)
  rw [List.length_reverse] at hrun₁ houtside₁
  rw [List.reverse_reverse] at hargs₁
  obtain ⟨locals₂, hrun₂, hlength₂, hmarks₂, houtside₂⟩ :=
    @run_clearLocals { vm with stack := stack, locals := locals₁ } newBase args.length
      (count - args.length) (by dsimp only; omega)
  dsimp only at hlength₂ houtside₂
  refine ⟨locals₂, ⟨hlength₂.trans hlength₁, fun i value hi ↦ ?_, fun i hi hi' ↦ ?_,
    fun cell hcell ↦ ?_⟩, ?_⟩
  · have hlt := (List.getElem?_eq_some_iff.mp hi).1
    rw [houtside₂ _ (.inl (by omega))]
    exact hargs₁ i value hi
  · exact hmarks₂ i hi (by omega)
  · rw [houtside₂ cell (by omega), houtside₁ cell (by omega)]
  · rw [EStateM.run_bind, hrun₁]
    exact hrun₂

/-- What a call finds. -/
structure Calls (program : CompiledProgram) (vm : Vm) (id : Nat) (func : FunctionInfo)
    (args stack : List Int) : Prop where
  id_lt : id < 2 ^ 31
  lookup : program.functions.lookup id = some func
  args_lt : args.length < 2 ^ 31
  paramCount : func.paramCount = args.length
  localCount : args.length ≤ func.localCount
  localCount_le : func.localCount ≤ maxLocalSlots
  stack : vm.stack = args.reverse ++ stack

section

variable {id : Nat} {func : FunctionInfo} {args : List Int}

theorem Current.eq (h : Current program vm.callStack base count) :
    (vm.callStack.head?.map CallFrame.basePtr).getD 0 + currentLocalCount program vm =
      base + count := by
  obtain ⟨⟨frame, frames, func, hframes, rfl, hfunc, rfl⟩, -⟩ := h
  rw [currentLocalCount, hframes, List.head?_cons, Option.map_some, Option.map_some,
    Option.getD_some, Option.getD_some, hfunc]
  rfl

theorem run_call (h : Calls program vm id func args stack)
    (hcurrent : Current program vm.callStack base count) :
    (call program (asI32 id) (asI32 args.length)).run vm =
      (if vm.callStack.length ≥ maxFrames then
        trap .stackOverflow s!"Call stack overflow (max {maxFrames} frames)"
      else if base + count + func.localCount > maxLocalSlots then
        trap .stackOverflow s!"Local storage overflow (need {base + count + func.localCount} slots, max {maxLocalSlots})"
      else do
        copyArgs (base + count) args.length
        clearLocals (base + count) args.length (func.localCount - args.length)
        modify fun vm ↦ { vm with
          callStack := ⟨vm.pc + 1, base + count, id⟩ :: vm.callStack
          pc := func.entryPc }
        return false : VmM Bool).run vm := by
  rw [call, if_neg (Int32.not_lt.mpr (asI32_nonneg h.id_lt)),
    if_neg (Int32.not_lt.mpr (asI32_nonneg h.args_lt)), asUsize_asI32 h.id_lt,
    asUsize_asI32 h.args_lt]
  dsimp only
  rw [h.lookup]
  dsimp only
  rw [if_neg (not_not.mpr h.paramCount.symm), EStateM.run_bind, EStateM.run_get]
  dsimp only
  split
  · rfl
  · rw [EStateM.run_bind, EStateM.run_get]
    dsimp only
    rw [hcurrent.eq]
    have hadd : base + count + func.localCount ≤ usizeMax := by
      have hlimit := hcurrent.limit
      have hlimit' := h.localCount_le
      rw [show maxLocalSlots = 1024 from rfl] at hlimit hlimit'
      rw [usizeMax]
      omega
    rw [checkedAdd_eq hadd]

/-- A call where there are no more frames. -/
theorem traps_call (h : Fetches program vm ⟨.call, asI32 id, asI32 args.length⟩)
    (hcalls : Calls program vm id func args stack)
    (hcurrent : Current program vm.callStack base count)
    (hdepth : vm.callStack.length ≥ maxFrames) : ∃ result,
      Traps program vm .stackOverflow vm.output result ∧ result.cycles = vm.cycles + 1 ∧
        result.trapMessage = s!"Call stack overflow (max {maxFrames} frames)" := by
  have hexec := @run_call program { vm with cycles := vm.cycles + 1 } stack base count id func args
    ⟨hcalls.id_lt, hcalls.lookup, hcalls.args_lt, hcalls.paramCount, hcalls.localCount,
      hcalls.localCount_le, hcalls.stack⟩ hcurrent
  dsimp only at hexec
  rw [if_pos hdepth] at hexec
  have htraps := traps_of_error h hexec
  exact ⟨_, htraps, rfl, rfl⟩

/-- The state after a call. -/
def enter (vm : Vm) (stack locals' : List Int) (newBase id : Nat) (func : FunctionInfo) : Vm :=
  { vm with
    stack := stack
    locals := locals'
    callStack := ⟨vm.pc + 1, newBase, id⟩ :: vm.callStack
    pc := func.entryPc
    cycles := vm.cycles + 1 }

theorem advances_call (h : Fetches program vm ⟨.call, asI32 id, asI32 args.length⟩)
    (hcalls : Calls program vm id func args stack)
    (hcurrent : Current program vm.callStack base count)
    (hcells : maxLocalSlots ≤ vm.locals.length)
    (hdepth : vm.callStack.length < maxFrames) :
    RunsShort program (vm.cycles + 1) vm ∨ base + count + func.localCount ≤ maxLocalSlots ∧
      ∃ locals', Entered vm.locals locals' (base + count) args func.localCount ∧
        step program vm = .inl (vm.enter stack locals' (base + count) id func) := by
  have hexec := @run_call program { vm with cycles := vm.cycles + 1 } stack base count id func args
    ⟨hcalls.id_lt, hcalls.lookup, hcalls.args_lt, hcalls.paramCount, hcalls.localCount,
      hcalls.localCount_le, hcalls.stack⟩ hcurrent
  dsimp only at hexec
  rw [if_neg (Nat.not_le.mpr hdepth)] at hexec
  by_cases hslots' : base + count + func.localCount > maxLocalSlots
  · rw [if_pos hslots'] at hexec
    exact .inl ⟨_, .slots, _, traps_of_error h hexec, ⟨_, rfl⟩, le_rfl⟩
  rw [if_neg hslots'] at hexec
  obtain ⟨locals', hentered, hrun⟩ := @exists_entered { vm with cycles := vm.cycles + 1 } stack
    func.localCount args (base + count) hcalls.stack hcalls.localCount (by
      dsimp only
      omega)
  refine .inr ⟨Nat.not_lt.mp hslots', locals', hentered, ?_⟩
  refine step_of_ok h false (vm.enter stack locals' (base + count) id func)
    (hexec.trans ?_) (List.cons_ne_nil _ _) h.plain.untraced
  rw [← bind_assoc, EStateM.run_bind, hrun]
  rfl

end

theorem advances_return {frame : CallFrame} {frames : List CallFrame}
    (h : Fetches program vm ⟨.return, arg1, arg2⟩)
    (hstack : vm.stack = value :: stack) (hframe : vm.callStack = frame :: frames)
    (hcaller : frames ≠ []) (hpc : frame.returnPc ≠ usizeMax) : Advances program vm { vm with
      stack := value :: stack
      callStack := frames
      pc := frame.returnPc
      cycles := vm.cycles + 1 } := by
  by_cases hroom : stack.length < maxOperandStack
  · refine .inl (step_of_ok h false _ ?_ hcaller h.plain.untraced)
    exact @run_ret { vm with cycles := vm.cycles + 1 } _ _ _ _ hstack hframe hroom hpc
  · have hexec : (executeInstruction program .return arg1 arg2).run
        { vm with cycles := vm.cycles + 1 } = .error (.trap .stackOverflow
          s!"Operand stack overflow (max {maxOperandStack} entries)")
          { vm with stack := stack, callStack := frames, cycles := vm.cycles + 1 } := by
      rw [executeInstruction, ret, EStateM.run_bind, run_pop (by exact hstack)]
      simp only [EStateM.run_bind, EStateM.run_get, hframe, EStateM.run_modify]
      rw [run_push_overflow (Nat.not_lt.mp hroom)]
    exact .inr ⟨_, .operands, _, traps_of_error h hexec, rfl, le_rfl⟩

/-- The return from `main`. -/
theorem ends_return {frame : CallFrame}
    (h : Fetches program vm ⟨.return, arg1, arg2⟩) (hstack : vm.stack = value :: stack)
    (hframe : vm.callStack = [frame]) (hpc : frame.returnPc = usizeMax) :
    RunsShort program (vm.cycles + 1) vm ∨ ∃ result, Halts program vm result ∧ result.success = true ∧
      result.returnValue = value ∧ result.trapCode = .none ∧ result.output = vm.output ∧
      result.cycles = vm.cycles + 1 := by
  by_cases hroom : stack.length < maxOperandStack
  · have hexec : (executeInstruction program .return arg1 arg2).run
        { vm with cycles := vm.cycles + 1 } = .ok false
          { vm with stack := value :: stack, callStack := [], cycles := vm.cycles + 1 } := by
      rw [executeInstruction, ret, EStateM.run_bind, run_pop (by exact hstack)]
      simp only [EStateM.run_bind, EStateM.run_get, hframe, EStateM.run_modify]
      rw [@run_push { vm with stack := stack, callStack := [], cycles := vm.cycles + 1 } value hroom]
      simp only [hpc, ne_eq, not_true_eq_false, if_false]
      rfl
    have hstep := step_eq h
    rw [hexec] at hstep
    exact .inr ⟨_, ⟨1, _, Stepping.run_of_end hstep⟩, rfl, rfl, rfl, rfl, rfl⟩
  · have hexec : (executeInstruction program .return arg1 arg2).run
        { vm with cycles := vm.cycles + 1 } = .error (.trap .stackOverflow
          s!"Operand stack overflow (max {maxOperandStack} entries)")
          { vm with stack := stack, callStack := [], cycles := vm.cycles + 1 } := by
      rw [executeInstruction, ret, EStateM.run_bind, run_pop (by exact hstack)]
      simp only [EStateM.run_bind, EStateM.run_get, hframe, EStateM.run_modify]
      rw [run_push_overflow (Nat.not_lt.mp hroom)]
    exact .inl ⟨_, .operands, _, traps_of_error h hexec, rfl, le_rfl⟩

end Vm

end MiniLang
