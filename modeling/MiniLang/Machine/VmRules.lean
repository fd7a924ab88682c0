import MiniLang.Machine.Vm

/-!
# Execution rules of the reference machine

What each operand function of the machine does when its checks pass, as equations for `run`.
-/

namespace MiniLang

theorem checkedAdd_eq {a b : Nat} (h : a + b ≤ usizeMax) : checkedAdd a b = some (a + b) := by
  rw [checkedAdd, if_pos h]

/-! ## The marker of an undefined local -/

/-- Arithmetic results are 32-bit values. -/
theorem normalizeI32_ne_i64Min (value : Int) : normalizeI32 value ≠ i64Min := by
  intro h
  have hneg : normalizeI32 value ≥ -2 ^ 31 := by
    rw [normalizeI32]
    split <;> omega
  rw [h] at hneg
  exact absurd hneg (by decide)

theorem flag_ne_i64Min (p : Prop) [Decidable p] : flag p ≠ i64Min := by
  intro h
  rw [flag] at h
  split at h <;> exact absurd h (by decide)

theorem natCast_ne_i64Min (n : Nat) : (n : Int) ≠ i64Min := by
  intro h
  rw [i64Min] at h
  omega

theorem toInt_ne_i64Min (arg : Int32) : arg.toInt ≠ i64Min := by
  intro h
  have hneg := Int32.le_toInt arg
  rw [h] at hneg
  exact absurd hneg (by decide)

/-! ## 32-bit values -/

/-- `value` is one of `i32`. -/
def IsI32 (value : Int) : Prop := -2 ^ 31 ≤ value ∧ value < 2 ^ 31

theorem isI32_normalizeI32 (value : Int) : IsI32 (normalizeI32 value) := by
  rw [IsI32, normalizeI32]
  split <;> omega

theorem normalizeI32_eq {value : Int} (h : IsI32 value) : normalizeI32 value = value := by
  rw [IsI32] at h
  rw [normalizeI32]
  split <;> omega

theorem isI32_flag (p : Prop) [Decidable p] : IsI32 (flag p) := by
  rw [IsI32, flag]
  split <;> decide

theorem isI32_toInt (arg : Int32) : IsI32 arg.toInt := ⟨Int32.le_toInt arg, Int32.toInt_lt arg⟩

theorem normalizeI32_eq_bmod (value : Int) : normalizeI32 value = value.bmod (2 ^ 32) := by
  rw [normalizeI32, Int.bmod_def]
  split <;> split <;> omega

theorem normalizeI32_wrapI64 (value : Int) : normalizeI32 (wrapI64 value) = normalizeI32 value := by
  rw [normalizeI32_eq_bmod, normalizeI32_eq_bmod, wrapI64, Int.bmod_bmod_of_dvd (by decide)]

theorem IsI32.ne_i64Min {value : Int} (h : IsI32 value) : value ≠ i64Min := by
  rw [IsI32] at h
  rw [i64Min]
  omega

/-! ## Rules -/

namespace Vm

variable {program : CompiledProgram} {vm : Vm} {frame : CallFrame} {frames : List CallFrame}
  {func : FunctionInfo} {value : Int} {stack : List Int} {raw rawSize : Int32} {slot size : Nat}

theorem run_pop (h : vm.stack = value :: stack) :
    pop.run vm = .ok value { vm with stack := stack } := by
  simp only [pop, EStateM.run_bind, EStateM.run_get, h]
  rfl

theorem run_push (h : vm.stack.length < maxOperandStack) :
    (push value).run vm = .ok () { vm with stack := value :: vm.stack } := by
  simp [push, Nat.not_le.mpr h]

theorem run_push_overflow (h : maxOperandStack ≤ vm.stack.length) : (push value).run vm =
    .error (.trap .stackOverflow s!"Operand stack overflow (max {maxOperandStack} entries)") vm := by
  simp [push, trap, h]

theorem run_readLocal (h : vm.locals[slot]? = some value) :
    (readLocal slot).run vm = .ok value vm := by
  simp [readLocal, h]

theorem run_writeLocal (h : slot < vm.locals.length) :
    (writeLocal slot value).run vm = .ok () { vm with locals := vm.locals.set slot value } := by
  simp [writeLocal, h]

theorem run_readGlobal (h : vm.globals[slot]? = some value) :
    (readGlobal slot).run vm = .ok value vm := by
  simp [readGlobal, h]

theorem run_writeGlobal (h : slot < vm.globals.length) :
    (writeGlobal slot value).run vm = .ok () { vm with globals := vm.globals.set slot value } := by
  simp [writeGlobal, h]

theorem run_currentLocalSlot (hraw : 0 ≤ raw) (hstack : vm.callStack = frame :: frames)
    (hfunc : program.functions.lookup frame.funcId = some func)
    (hslot : asUsize raw < func.localCount)
    (hlimit : frame.basePtr + asUsize raw < maxLocalSlots) :
    (currentLocalSlot program raw).run vm = .ok (frame.basePtr + asUsize raw) vm := by
  have hadd := checkedAdd_eq
    (Nat.le_trans (Nat.le_of_lt hlimit) (by decide : maxLocalSlots ≤ usizeMax))
  simp [currentLocalSlot, Int32.not_lt.mpr hraw, hstack, hfunc, Nat.not_le.mpr hslot, hadd,
    Nat.not_le.mpr hlimit]

theorem run_globalSlot (hraw : 0 ≤ raw) (hslot : asUsize raw < vm.globals.length) :
    (globalSlot raw).run vm = .ok (asUsize raw) vm := by
  simp [globalSlot, Int32.not_lt.mpr hraw, Nat.not_le.mpr hslot]

theorem run_arraySize (hraw : 0 ≤ raw) : (arraySize raw).run vm = .ok (asUsize raw) vm := by
  simp [arraySize, Int32.not_lt.mpr hraw]

theorem run_globalArrayRange (hraw : 0 ≤ raw) (hsize : 0 ≤ rawSize)
    (hslot : asUsize raw < vm.globals.length)
    (hlast : asUsize raw + asUsize rawSize ≤ vm.globals.length)
    (hlimit : vm.globals.length ≤ usizeMax) :
    (globalArrayRange raw rawSize).run vm = .ok (asUsize raw, asUsize rawSize) vm := by
  simp [globalArrayRange, run_globalSlot hraw hslot, run_arraySize hsize,
    checkedAdd_eq (Nat.le_trans hlast hlimit), Nat.not_lt.mpr hlast]

theorem run_arrayIndex (hneg : 0 ≤ value) (hlt : value.toNat < size) :
    (arrayIndex value size).run vm = .ok value.toNat vm := by
  simp [arrayIndex, Int.not_lt.mpr hneg, Nat.not_le.mpr hlt]

theorem run_arrayIndex_error (h : value < 0 ∨ value.toNat ≥ size) :
    (arrayIndex value size).run vm =
      .error (.trap .arrayOutOfBounds s!"Array index {value} out of bounds (size {size})") vm := by
  simp only [arrayIndex, if_pos h]
  rfl

theorem run_localArrayBase_error (h : vm.locals[slot]? = some i64Min) :
    (localArrayBase slot size).run vm =
      .error (.trap .undefinedLocal s!"Undefined local at slot {slot}") vm := by
  simp only [localArrayBase, EStateM.run_bind, run_readLocal h, if_true]
  rfl

theorem run_ret (hvalue : vm.stack = value :: stack) (hframe : vm.callStack = frame :: frames)
    (hroom : stack.length < maxOperandStack) (hpc : frame.returnPc ≠ usizeMax) :
    ret.run vm = .ok false { vm with
      stack := value :: stack
      callStack := frames
      pc := frame.returnPc } := by
  rw [ret, EStateM.run_bind, run_pop hvalue]
  simp only [EStateM.run_bind, EStateM.run_get, hframe, EStateM.run_modify]
  rw [@run_push { vm with stack := stack, callStack := frames } value hroom]
  simp only [ne_eq, hpc, not_false_eq_true, if_true]
  rfl

/-- Without a trace nothing is recorded. -/
theorem recordTrace_eq {after : Vm} (before : Vm) (instr : Instruction) (outcome : TraceOutcome)
    (h : after.trace = none) : recordTrace before after instr outcome = after := by
  rw [recordTrace, h, Option.map_none, ← h]

/-- A run ends in one way. -/
theorem runFull_unique {fuel fuel' : Nat} {r r' : VmHalt × Vm}
    (h : runFull program fuel vm = some r) (h' : runFull program fuel' vm = some r') : r = r' := by
  rw [runFull] at h h'
  split at h
  · next hstart =>
    rw [hstart] at h'
    exact Option.some_inj.mp (h.symm.trans h')
  · next hstart =>
    rw [hstart] at h'
    exact Stepping.run_unique h h'

end Vm

end MiniLang
