import MiniLang.Jit.Simulation
import MiniLang.Machine.StraightLine

/-!
# Calls of the machine code

The prologue makes the native frame of a call, the epilogue leaves it: called like a C function, the
code of straight-line bytecode comes back to its caller with the top operand in `rax`.
-/

namespace MiniLang

open ByteMemory X86 Verifier

variable {program : CompiledProgram} {main : FunctionInfo} {body : List Instruction}

/-! ## Calls -/

/-- A call of the code at `origin`: control is at its first byte, and the return address on the
stack is outside of it. User space has 47 address bits. -/
structure Called (origin : Word) (code : List Byte) (cpu : Cpu) : Prop where
  rip : cpu.rip = origin
  size : code.length < 2 ^ 47
  outside : code.length ≤ (read cpu.machine.mem (cpu.machine.regs .rsp) - origin).toNat

/-- The call comes back to the return address, with the stack and the frame pointer of the caller
and with `value` as an `i64` in `rax`. -/
def Returns (origin : Word) (code : List Byte) (cpu : Cpu) (value : Int) : Prop :=
  ∃ fuel cpu', Stepping.run (X86.step origin code) fuel cpu = some (.left cpu') ∧
    cpu'.rip = read cpu.machine.mem (cpu.machine.regs .rsp) ∧
    cpu'.machine.regs .rsp = cpu.machine.regs .rsp + 8 ∧
    cpu'.machine.regs .rbp = cpu.machine.regs .rbp ∧ (cpu'.machine.regs .rax).toInt = value

/-- The frame that a call makes. -/
def calledFrame (cpu : Cpu) : NativeFrame where
  base := cpu.machine.regs .rsp
  returnAddress := read cpu.machine.mem (cpu.machine.regs .rsp)
  callerRbp := cpu.machine.regs .rbp

namespace NativeFrame

variable {frame : NativeFrame} {s : Scalars} {m : Machine} {value : Int} {stack : List Int}

/-- At the first and at the last instruction, the stack pointer is at the return address. -/
structure Outer (frame : NativeFrame) (m : Machine) : Prop where
  rsp : m.regs .rsp = cell frame.base 0
  rbp : m.regs .rbp = frame.callerRbp
  returnAddress : read m.mem (cell frame.base 0) = frame.returnAddress

theorem outer_called (cpu : Cpu) : (calledFrame cpu).Outer cpu.machine :=
  ⟨(cell_zero _).symm, rfl, by rw [cell_zero]; rfl⟩

theorem block_prologue :
    Block frame.Outer JitCompiler.emitPrologue (frame.With .start []) := by
  have hpush : Block frame.Outer (MachineCode.push .rbp) fun m ↦
      m.regs .rsp = cell frame.base 1 ∧ read m.mem (cell frame.base 0) = frame.returnAddress ∧
        read m.mem (cell frame.base 1) = frame.callerRbp := by
    refine .single (show Encodes _ (.push .rbp) from fun _ ↦ rfl) fun m h ↦ ⟨_, rfl, ?_⟩
    have htop : m.regs .rsp - 8 = cell frame.base 1 := by rw [h.rsp, ← cell_succ]
    dsimp only
    rw [htop, h.rbp]
    exact ⟨m.regs_setReg_self .rsp _,
      (read_write_cell _ _ _ (by decide) (by decide) (by decide)).trans h.returnAddress,
      read_write_self ..⟩
  have hmov : Block (fun m ↦ m.regs .rsp = cell frame.base 1 ∧
      read m.mem (cell frame.base 0) = frame.returnAddress ∧
        read m.mem (cell frame.base 1) = frame.callerRbp) (MachineCode.mov .rbp .rsp) fun m ↦
      m.regs .rbp = cell frame.base 1 ∧ m.regs .rsp = cell frame.base 1 ∧
        read m.mem (cell frame.base 0) = frame.returnAddress ∧
        read m.mem (cell frame.base 1) = frame.callerRbp := by
    refine .single (show Encodes _ (.mov (.reg .rbp) (.reg .rsp)) from fun _ ↦ rfl)
      fun m ⟨hrsp, hcells⟩ ↦ ⟨_, rfl, ?_, ?_, hcells⟩
    · exact (m.regs_setReg_self .rbp _).trans hrsp
    · exact (m.regs_setReg_of_ne (by decide) _).trans hrsp
  refine (hpush.append hmov).append
    (.single (show Encodes _ (.subImm .rsp 8192) from fun _ ↦ rfl) fun m h ↦ ?_)
  obtain ⟨hrbp, hrsp, hreturn, hcaller⟩ := h
  have hreserved : m.regs .rsp - 8192 = cell frame.base 1025 := by
    rw [hrsp, ← cell_cell frame.base 1 1024]
    rfl
  refine ⟨_, rfl, ⟨?_, ?_, hreturn, hcaller, fun slot value hslot hset ↦ ?_, fun height value h ↦ ?_⟩,
    fun _ hp ↦ absurd hp List.not_mem_nil⟩
  · exact (m.regs_setReg_of_ne (by decide) (m.regs .rsp - 8192)).trans hrbp
  · exact (m.regs_setReg_self .rsp (m.regs .rsp - 8192)).trans hreserved
  · exact absurd (List.eq_of_mem_replicate (List.mem_of_getElem? hslot)) hset
  · cases h

/-- The code of `Return` but for its last instruction. -/
theorem block_leave (hstack : s.stack = value :: stack) :
    Block (frame.With s [])
      (MachineCode.pop .rax ++ (MachineCode.mov .rsp .rbp ++ MachineCode.pop .rbp))
      fun m ↦ frame.Outer m ∧ m.regs .rax = BitVec.ofInt 64 value := by
  have hmov : Block (frame.With { s with stack := stack } [(.rax, BitVec.ofInt 64 value)])
      (MachineCode.mov .rsp .rbp) fun m ↦ m.regs .rsp = cell frame.base 1 ∧
        read m.mem (cell frame.base 0) = frame.returnAddress ∧
        read m.mem (cell frame.base 1) = frame.callerRbp ∧
        m.regs .rax = BitVec.ofInt 64 value := by
    refine .single (show Encodes _ (.mov (.reg .rsp) (.reg .rbp)) from fun _ ↦ rfl)
      fun m h ↦ ⟨_, rfl, ?_, h.1.returnAddress, h.1.callerRbp, ?_⟩
    · exact (m.regs_setReg_self .rsp _).trans h.1.rbp
    · exact (m.regs_setReg_of_ne (by decide) _).trans h.reg
  refine (block_popRax hstack).append (hmov.append
    (.single (show Encodes _ (.pop .rbp) from fun _ ↦ rfl) fun m h ↦ ?_))
  obtain ⟨hrsp, hreturn, hcaller, hrax⟩ := h
  have hup : m.regs .rsp + 8 = cell frame.base 0 := by rw [hrsp, cell_succ_add]
  refine ⟨_, rfl, ⟨?_, ?_, hreturn⟩, ?_⟩
  · refine (Machine.regs_setReg_of_ne _ (by decide) _).trans ?_
    exact (m.regs_setReg_self .rsp _).trans hup
  · refine (Machine.regs_setReg_self ..).trans ?_
    rw [hrsp, hcaller]
  · refine (Machine.regs_setReg_of_ne _ (by decide) _).trans ?_
    exact (m.regs_setReg_of_ne (by decide) _).trans hrax

/-- **A call comes back.** -/
theorem returns_of_block {origin : Word} {code bytes : List Byte} {cpu : Cpu}
    (hcalled : Called origin code cpu) (hcode : code = bytes ++ MachineCode.ret) {word : Word}
    (h : Block (calledFrame cpu).Outer bytes
      fun m ↦ (calledFrame cpu).Outer m ∧ m.regs .rax = word) :
    Returns origin code cpu word.toInt := by
  have hlength : code.length < 2 ^ 64 := hcalled.size.trans (by decide)
  have hpiece : code = [] ++ (bytes ++ MachineCode.ret) := hcode
  obtain ⟨m, ⟨hm, hrax⟩, hreaches⟩ := @Block.reaches origin _ _ _ _ _ _ _ h hpiece
    hlength (outer_called cpu)
  have hlast : code = bytes ++ (MachineCode.ret ++ []) := by rw [hcode, List.append_nil]
  have hret := @step_ret origin _ _ _ _ m hlast hlength
    (show Encodes MachineCode.ret .ret from fun _ ↦ rfl)
  rw [hm.rsp, hm.returnAddress] at hret
  have hstart : (⟨origin + BitVec.ofNat 64 ([] : List Byte).length, cpu.machine⟩ : Cpu) = cpu := by
    obtain ⟨rip, machine⟩ := cpu
    obtain rfl : rip = origin := hcalled.rip
    exact congrArg (Cpu.mk · machine) (BitVec.add_zero _)
  rw [hstart, List.nil_append] at hreaches
  obtain ⟨fuel, hrun⟩ :=
    Stepping.exists_run_of_reaches (hreaches.tail hret) (step_of_outside hcalled.outside)
  refine ⟨fuel, _, hrun, rfl, ?_, ?_, ?_⟩
  · refine (m.regs_setReg_self .rsp _).trans ?_
    rw [cell_zero]
    rfl
  · exact (m.regs_setReg_of_ne (by decide) _).trans hm.rbp
  · rw [m.regs_setReg_of_ne (by decide), hrax]

end NativeFrame

end MiniLang
