import MiniLang.Jit.Equivalence
import MiniLang.Lib.X86Frames

/-!
# The layout of the native frame

The prologue reserves 8192 bytes below `rbp`. The locals of an eligible program have distinct words
there, all that the code pushes and pops is below, and before the code of each instruction the
native stack is as deep as the verifier says.

## The construction

The emitted bytes are split into pieces, one machine instruction each, with the bytes of every piece
proved to be what the emitter writes. A piece is either a push or a pop, which changes the depth by
one word, or leaves the stack alone; `KeepsAll` follows a list of pieces from one depth to another.
The pieces of an instruction of the bytecode change the depth as the verifier's effect does
(`keepsAll_pieces`). The proof goes along the emitted code with the states of the verifier, not
along a run: what is pushed does not matter, and so the layout holds in every call, whatever the
values are.

## The invariant

At a piece of the code the frame has a shape: how many words are on the native stack below the
reserved bytes, and whether the flags are defined. The layout of a call is read off it. The word of
local slot `s` is at `rbp - (8 + 8 * s)`, so 1024 slots fill the reserved bytes exactly and distinct
slots have words that do not overlap; an access to memory is either that of a local, with `rbp` in
place, or a push or a pop, below all of them. After the epilogue the frame pointer and the stack
pointer are the caller's.
-/

namespace MiniLang

open ByteMemory X86 Verifier

variable {program : CompiledProgram} {main : FunctionInfo} {body : List Instruction}
  {instr : Instruction}

/-! ## The emitted code, piece by piece -/

namespace JitCompiler

def pushRax : Piece := ⟨MachineCode.push .rax, .push .rax, fun _ ↦ rfl⟩

def popRax : Piece := ⟨MachineCode.pop .rax, .pop .rax, fun _ ↦ rfl⟩

def popRcx : Piece := ⟨MachineCode.pop .rcx, .pop .rcx, fun _ ↦ rfl⟩

/-- Zero-extend the byte that a condition has set. -/
def extendRax : Piece := ⟨MachineCode.movzx .rax .rax, .movzx .rax .rax, fun _ ↦ rfl⟩

def seteRax : Piece := ⟨MachineCode.sete .rax, .set .e .rax, fun _ ↦ rfl⟩

/-- The pieces of `arithmetic`. -/
def arithmeticPieces (op : Piece) : Listing :=
  [popRcx, popRax, op, ⟨MachineCode.movsxd32 .rax .rax, .movsxd .rax .rax, fun _ ↦ rfl⟩, pushRax]

/-- The pieces of `comparison`. -/
def comparisonPieces (set : Piece) : Listing :=
  [popRcx, popRax, ⟨MachineCode.cmp .rax .rcx, .cmp .rax .rcx, fun _ ↦ rfl⟩, set, extendRax,
    pushRax]

/-- The pieces of `compileInstruction`. -/
def pieces (instr : Instruction) : Listing :=
  match instr.opcode with
  | .loadConst => [⟨_, _, MachineCode.encodes_movImm32 instr.arg1⟩, pushRax]
  | .loadLocal => [⟨_, _, MachineCode.encodes_loadLocal (localOffset instr.arg1)⟩, pushRax]
  | .storeLocal => [popRax, ⟨_, _, MachineCode.encodes_storeLocal (localOffset instr.arg1)⟩]
  | .add => arithmeticPieces ⟨MachineCode.add .rax .rcx, .add .rax .rcx, fun _ ↦ rfl⟩
  | .sub => arithmeticPieces ⟨MachineCode.sub .rax .rcx, .sub .rax .rcx, fun _ ↦ rfl⟩
  | .mul => arithmeticPieces ⟨MachineCode.imul .rax .rcx, .imul .rax .rcx, fun _ ↦ rfl⟩
  | .neg => [popRax, ⟨MachineCode.neg .rax, .neg .rax, fun _ ↦ rfl⟩, pushRax]
  | .eq => comparisonPieces seteRax
  | .ne => comparisonPieces ⟨MachineCode.setne .rax, .set .ne .rax, fun _ ↦ rfl⟩
  | .lt => comparisonPieces ⟨MachineCode.setl .rax, .set .l .rax, fun _ ↦ rfl⟩
  | .gt => comparisonPieces ⟨MachineCode.setg .rax, .set .g .rax, fun _ ↦ rfl⟩
  | .le => comparisonPieces ⟨MachineCode.setle .rax, .set .le .rax, fun _ ↦ rfl⟩
  | .ge => comparisonPieces ⟨MachineCode.setge .rax, .set .ge .rax, fun _ ↦ rfl⟩
  | .not => [popRax, ⟨MachineCode.test .rax .rax, .test .rax .rax, fun _ ↦ rfl⟩, seteRax, extendRax,
      pushRax]
  | .pop => [popRax]
  | .dup => [popRax, pushRax, pushRax]
  | _ => []

theorem bytes_pieces (hop : jitSupportsOpcode instr.opcode = true)
    (hreturn : instr.opcode ≠ .return) : (pieces instr).bytes = compileInstruction instr := by
  obtain ⟨opcode, arg1, arg2⟩ := instr
  cases opcode with
  | «return» => exact absurd rfl hreturn
  | loadConst | loadLocal | storeLocal | pop | dup | neg | not =>
    simp [pieces, compileInstruction, popRax, pushRax, seteRax, extendRax]
  | add | sub | mul =>
    simp [pieces, compileInstruction, arithmeticPieces, arithmetic, popRax, popRcx, pushRax]
  | eq | ne | lt | gt | le | ge =>
    simp [pieces, compileInstruction, comparisonPieces, comparison, popRax, popRcx, pushRax,
      seteRax, extendRax]
  | _ => cases hop

theorem bytes_flatMap_pieces
    (hbody : ∀ instr ∈ body, jitSupportsOpcode instr.opcode = true ∧ instr.opcode ≠ .return) :
    Listing.bytes (body.flatMap pieces) = body.flatMap compileInstruction := by
  induction body with
  | nil => rfl
  | cons instr body ih =>
    obtain ⟨⟨hop, hreturn⟩, hrest⟩ := List.forall_mem_cons.mp hbody
    rw [List.flatMap_cons, Listing.bytes_append, bytes_pieces hop hreturn, ih hrest,
      List.flatMap_cons]

def prologuePieces : Listing :=
  [⟨MachineCode.push .rbp, .push .rbp, fun _ ↦ rfl⟩,
    ⟨MachineCode.mov .rbp .rsp, .mov (.reg .rbp) (.reg .rsp), fun _ ↦ rfl⟩,
    ⟨MachineCode.subImm .rsp 8192, .subImm .rsp 8192, fun _ ↦ rfl⟩]

/-- The pieces of `emitEpilogue`, but for its `ret`. -/
def epiloguePieces : Listing :=
  [⟨MachineCode.mov .rsp .rbp, .mov (.reg .rsp) (.reg .rbp), fun _ ↦ rfl⟩,
    ⟨MachineCode.pop .rbp, .pop .rbp, fun _ ↦ rfl⟩]

/-- The pieces of `main` between prologue and epilogue: those of the body, and the operand that
`Return` takes. -/
def mainPieces (body : List Instruction) : Listing := body.flatMap pieces ++ [popRax]

end JitCompiler

/-! ## The pieces keep the frame -/

section Keeping

variable {locals room k slot : Nat} {arg : Int32}

open JitCompiler

theorem scratch_rax : Reg.Scratch .rax := ⟨nofun, nofun⟩

theorem scratch_rcx : Reg.Scratch .rcx := ⟨nofun, nofun⟩

theorem localOperand_eq (harg : 0 ≤ arg) (hslot : asUsize arg = slot) (hlt : slot < maxLocalSlots) :
    MachineCode.localOperand (localOffset arg) = frameWord slot := by
  rw [MachineCode.localOperand, frameWord, NativeFrame.ofInt_localOffset harg hslot hlt]

theorem keepsAll_arithmetic {op : Piece} (hop : op.instr.computes = some .rax)
    (hroom : k + 1 ≤ room) :
    KeepsAll locals room (arithmeticPieces op).instrs ⟨k + 2, false⟩ ⟨k + 1, false⟩ :=
  .cons (.pop scratch_rcx (k + 1) false) <| .cons (.pop scratch_rax k false) <|
    .cons (.compute hop scratch_rax k false) <| .cons (.compute rfl scratch_rax k false) <|
    .cons (.push .rax hroom) <| .nil _

theorem keepsAll_comparison {set : Piece} {cond : Cond} (hset : set.instr = .set cond .rax)
    (hroom : k + 1 ≤ room) :
    KeepsAll locals room (comparisonPieces set).instrs ⟨k + 2, false⟩ ⟨k + 1, false⟩ :=
  .cons (.pop scratch_rcx (k + 1) false) <| .cons (.pop scratch_rax k false) <|
    .cons (.compare rfl k false) <| .cons (hset ▸ .set cond scratch_rax k) <|
    .cons (.compute rfl scratch_rax k false) <| .cons (.push .rax hroom) <| .nil _

/-- **The step lemma.** The pieces of an instruction change the depth of the stack as the verifier
says. -/
theorem keepsAll_pieces {range : FunctionRange} {depth : Nat}
    (hops : OperandsOk program range instr) (hlocals : range.info.localCount ≤ maxLocalSlots)
    (hdepth : pops instr ≤ depth) (hroom : depth - pops instr + pushes instr ≤ maxOperandStack)
    (hop : jitSupportsOpcode instr.opcode = true) (hreturn : instr.opcode ≠ .return) :
    KeepsAll range.info.localCount maxOperandStack (pieces instr).instrs ⟨depth, false⟩
      ⟨depth - pops instr + pushes instr, false⟩ := by
  obtain ⟨k, rfl⟩ := Nat.exists_eq_add_of_le' hdepth
  rw [Nat.add_sub_cancel] at hroom ⊢
  obtain ⟨opcode, arg1, arg2⟩ := instr
  have hword (h : IsLocal range arg1) :
      MachineCode.localOperand (localOffset arg1) = frameWord (asUsize arg1) :=
    localOperand_eq h.1 rfl (Nat.lt_of_lt_of_le h.2 hlocals)
  cases opcode with
  | «return» => exact absurd rfl hreturn
  | loadConst => exact .cons (.compute rfl scratch_rax k false) (.cons (.push .rax hroom) (.nil _))
  | loadLocal =>
    have hops : IsLocal range arg1 := hops
    have hload : Keeps range.info.localCount maxOperandStack
        (.mov (.reg .rax) (MachineCode.localOperand (localOffset arg1))) ⟨k, false⟩ ⟨k, false⟩ := by
      rw [hword hops]
      exact .load scratch_rax hops.2 _
    exact .cons hload (.cons (.push .rax hroom) (.nil _))
  | storeLocal =>
    have hops : IsLocal range arg1 := hops
    have hstore : Keeps range.info.localCount maxOperandStack
        (.mov (MachineCode.localOperand (localOffset arg1)) (.reg .rax)) ⟨k, false⟩ ⟨k, false⟩ := by
      rw [hword hops]
      exact .store .rax hops.2 _
    exact .cons (.pop scratch_rax k false) (.cons hstore (.nil _))
  | add | sub | mul => exact keepsAll_arithmetic rfl hroom
  | eq | ne | lt | gt | le | ge => exact keepsAll_comparison rfl hroom
  | neg =>
    exact .cons (.pop scratch_rax k false) <| .cons (.compute rfl scratch_rax k false) <|
      .cons (.push .rax hroom) <| .nil _
  | not =>
    exact .cons (.pop scratch_rax k false) <| .cons (.compare rfl k false) <|
      .cons (.set .e scratch_rax k) <| .cons (.compute rfl scratch_rax k false) <|
      .cons (.push .rax hroom) <| .nil _
  | pop => exact .cons (.pop scratch_rax k false) (.nil _)
  | dup =>
    exact .cons (.pop scratch_rax k false) <| .cons (.push .rax (Nat.le_of_succ_le hroom)) <|
      .cons (.push .rax hroom) <| .nil _
  | _ => cases hop

end Keeping

/-! ## The verifier's states -/

/-- What the verifier and the scan have found out about the `main` of an eligible program. -/
structure CertifiedMain (program : CompiledProgram) (main : FunctionInfo)
    (body : List Instruction) : Prop where
  lookup : program.functions.lookup program.mainFuncId = some main
  single : program.functions.entries.length = 1
  localCount_le : main.localCount ≤ maxLocalSlots
  code : ∃ ret rest, program.instructions.drop main.entryPc = body ++ ret :: rest ∧
    ret.opcode = .return
  supported : ∀ instr ∈ body, jitSupportsOpcode instr.opcode = true ∧ instr.opcode ≠ .return
  certified : ∃ range traps, range.info = main ∧ range.start = main.entryPc ∧
    Certified program range traps (callGraph program) (stateAt program program.mainFuncId)

/-- What the scan lets through goes on to the next instruction. -/
theorem successors_of_supported {pc : Nat} (hop : jitSupportsOpcode instr.opcode = true)
    (hreturn : instr.opcode ≠ .return) : successors pc instr = [pc + 1] := by
  obtain ⟨opcode, arg1, arg2⟩ := instr
  cases opcode with
  | jump | jumpIfFalse | jumpIfTrue | halt => cases hop
  | «return» => exact absurd rfl hreturn
  | _ => rfl

theorem exists_certifiedMain (h : (verify program).backendEligibility.jit.eligible = true) :
    ∃ main body, CertifiedMain program main body := by
  obtain ⟨hvalid, -, hsingle, main, hmain, hscan⟩ := Vm.of_eligible h
  obtain ⟨body, ret, rest, hcode, hret, hbody⟩ := exists_of_jitScan hscan
  have hverified := verified_of_valid hvalid
  obtain ⟨range, -, hinfo, hstart, hcert⟩ := hverified.functions _ _ hmain
  exact ⟨main, body, hmain, hsingle, (hverified.slots _ _ hmain).2, ⟨ret, rest, hcode, hret⟩, hbody,
    range, _, hinfo, hstart, hcert⟩

namespace CertifiedMain

variable {i : Nat}

theorem getElem? (h : CertifiedMain program main body) (hi : body[i]? = some instr) :
    program.instructions[main.entryPc + i]? = some instr := by
  obtain ⟨ret, rest, hcode, -⟩ := h.code
  rw [← List.getElem?_drop, hcode, List.getElem?_append_left (List.getElem?_eq_some_iff.mp hi).1]
  exact hi

theorem exists_return (h : CertifiedMain program main body) :
    ∃ ret, program.instructions[main.entryPc + body.length]? = some ret ∧ ret.opcode = .return := by
  obtain ⟨ret, rest, hcode, hret⟩ := h.code
  refine ⟨ret, ?_, hret⟩
  rw [← List.getElem?_drop, hcode, List.getElem?_append_right le_rfl, Nat.sub_self,
    List.getElem?_cons_zero]

/-- **The run lemma**, over the code and not over a run. The verifier has a state for each
instruction of the body, and the pieces before it leave the stack that deep. -/
theorem exists_stateAt (h : CertifiedMain program main body) (hi : i ≤ body.length) :
    ∃ st, stateAt program program.mainFuncId (main.entryPc + i) = some st ∧
      KeepsAll main.localCount maxOperandStack
        (Listing.instrs ((body.take i).flatMap JitCompiler.pieces)) ⟨0, false⟩
        ⟨st.stackDepth, false⟩ := by
  obtain ⟨range, traps, rfl, hstart, hcert⟩ := h.certified
  induction i with
  | zero =>
    obtain ⟨st, hst, hle⟩ := hcert.entry
    refine ⟨st, hstart ▸ hst, ?_⟩
    rw [hle.1]
    exact .nil _
  | succ i ih =>
    obtain ⟨st, hst, hall⟩ := ih (Nat.le_of_succ_le hi)
    have hget : body[i]? = some body[i] := List.getElem?_eq_getElem hi
    obtain ⟨hop, hreturn⟩ := h.supported _ (List.getElem_mem hi)
    obtain ⟨instr, hinstr, hops, hpops, -, hsucc, hroom, -⟩ := hcert.step _ st hst
    obtain rfl := Option.some_inj.mp ((h.getElem? hget).symm.trans hinstr)
    obtain ⟨st', hst', hle⟩ := hsucc (range.info.entryPc + i + 1) (by
      rw [successors_of_supported hop hreturn]
      exact List.mem_cons_self)
    refine ⟨st', hst', ?_⟩
    rw [List.take_succ_eq_append_getElem hi, List.flatMap_append, List.flatMap_singleton,
      Listing.instrs_append, hle.1]
    exact hall.append (keepsAll_pieces hops h.localCount_le hpops hroom hop hreturn)

/-- The pieces of `main` keep the frame. -/
theorem exists_keepsAll (h : CertifiedMain program main body) : ∃ depth,
    KeepsAll main.localCount maxOperandStack (Listing.instrs (JitCompiler.mainPieces body))
      ⟨0, false⟩ ⟨depth, false⟩ := by
  obtain ⟨st, hst, hall⟩ := h.exists_stateAt le_rfl
  obtain ⟨range, traps, rfl, hstart, hcert⟩ := h.certified
  obtain ⟨ret, hget, hret⟩ := h.exists_return
  obtain ⟨instr, hinstr, -, hpops, -⟩ := hcert.step _ st hst
  obtain rfl := Option.some_inj.mp (hget.symm.trans hinstr)
  have hdepth : 1 ≤ st.stackDepth := by
    rw [pops, hret] at hpops
    exact hpops
  obtain ⟨depth, hdepth⟩ := Nat.exists_eq_add_of_le' hdepth
  rw [List.take_length, hdepth] at hall
  refine ⟨depth, ?_⟩
  rw [JitCompiler.mainPieces, Listing.instrs_append]
  exact hall.append (.cons (.pop scratch_rax depth false) (.nil _))

end CertifiedMain

/-! ## The layout -/

/-- How much code comes before that of the `i`-th instruction of `main`. -/
def pcOffset (body : List Instruction) (i : Nat) : Nat :=
  JitCompiler.emitPrologue.length + ((body.take i).flatMap JitCompiler.compileInstruction).length

/-- Where the processor is in the code. -/
def codeOffset (origin : Word) (cpu : Cpu) : Nat := (cpu.rip - origin).toNat

/-- The machine instruction that the processor is about to execute. -/
def AboutTo (origin : Word) (code : List Byte) (cpu : Cpu) (instr : Instr) : Prop :=
  ∃ rest, decode (code.drop (codeOffset origin cpu)) = some (instr, rest)

/-- Where `rbp` points in a call. -/
def framePointer (cpu : Cpu) : Word := cpu.machine.regs .rsp - 8

/-- The word that the code of `LoadLocal` and `StoreLocal` uses. -/
def localWord (rbp : Word) (arg1 : Int32) : Word :=
  rbp + BitVec.ofInt 64 (JitCompiler.localOffset arg1).toInt

/-- `arg1` names a local slot of the function. -/
def IsSlot (main : FunctionInfo) (arg1 : Int32) : Prop :=
  0 ≤ arg1 ∧ asUsize arg1 < main.localCount

/-- One of the bytes that the prologue reserves. -/
def Reserved (rbp x : Word) : Prop := 0 < (rbp - x).toNat ∧ (rbp - x).toNat ≤ 8192

/-- One of the bytes below these, as far as the deepest operand stack reaches. -/
def BelowReserved (rbp x : Word) : Prop :=
  8192 < (rbp - x).toNat ∧ (rbp - x).toNat ≤ 8192 + 8 * maxOperandStack

/-- **The layout of the frame** in a call of the code. -/
structure FrameLayout (program : CompiledProgram) (main : FunctionInfo) (body : List Instruction)
    (origin : Word) (code : List Byte) (cpu : Cpu) : Prop where
  /-- The words of the locals are reserved. -/
  inside : ∀ arg1, IsSlot main arg1 →
    ∀ x, InWord (localWord (framePointer cpu) arg1) x → Reserved (framePointer cpu) x
  /-- They do not overlap. -/
  apart : ∀ arg1 arg1', IsSlot main arg1 → IsSlot main arg1' → arg1 ≠ arg1' →
    ∀ x, InWord (localWord (framePointer cpu) arg1) x →
      ¬InWord (localWord (framePointer cpu) arg1') x
  /-- Nothing else is used for them, nor are they used for anything else. -/
  uses : ∀ i instr cpu' x, body[i]? = some instr →
    Stepping.Reaches (X86.step origin code) cpu cpu' →
    pcOffset body i ≤ codeOffset origin cpu' → codeOffset origin cpu' < pcOffset body (i + 1) →
    AboutTo origin code cpu' x → ∀ a ∈ x.dataAccesses cpu'.machine,
      (instr.opcode = .loadLocal ∨ instr.opcode = .storeLocal) ∧ IsSlot main instr.arg1 ∧
        a = localWord (framePointer cpu) instr.arg1
  /-- The call gets to the code of each instruction up to the `Return`. -/
  visits : ∀ i ≤ body.length, ∃ cpu', Stepping.Reaches (X86.step origin code) cpu cpu' ∧
    codeOffset origin cpu' = pcOffset body i
  /-- There the native stack holds as many operands as the verifier says. -/
  depth : ∀ i ≤ body.length, ∀ cpu', Stepping.Reaches (X86.step origin code) cpu cpu' →
    codeOffset origin cpu' = pcOffset body i → cpu'.machine.regs .rbp = framePointer cpu ∧
      ∃ st, stateAt program program.mainFuncId (main.entryPc + i) = some st ∧
        (framePointer cpu - cpu'.machine.regs .rsp).toNat = 8192 + 8 * st.stackDepth
  /-- Between prologue and epilogue, pushes and pops are below the reserved bytes. -/
  below : ∀ cpu' x, Stepping.Reaches (X86.step origin code) cpu cpu' →
    pcOffset body 0 ≤ codeOffset origin cpu' →
    codeOffset origin cpu' ≤ pcOffset body body.length → AboutTo origin code cpu' x →
    ∀ a ∈ x.stackAccesses cpu'.machine, ∀ y, InWord a y → BelowReserved (framePointer cpu) y
  /-- No push, pop or `ret` of the whole call touches a local. -/
  untouched : ∀ cpu' x, Stepping.Reaches (X86.step origin code) cpu cpu' →
    AboutTo origin code cpu' x → ∀ a ∈ x.stackAccesses cpu'.machine,
    ∀ arg1, IsSlot main arg1 → ∀ y, InWord a y → ¬InWord (localWord (framePointer cpu) arg1) y
  /-- The call comes back with the stack and the frame pointer of the caller. -/
  returns : ∃ fuel cpu', Stepping.run (X86.step origin code) fuel cpu = some (.left cpu') ∧
    cpu'.rip = read cpu.machine.mem (cpu.machine.regs .rsp) ∧
    cpu'.machine.regs .rsp = cpu.machine.regs .rsp + 8 ∧
    cpu'.machine.regs .rbp = cpu.machine.regs .rbp

/-- Every call of the machine code has the layout. -/
def FramesLaidOut (program : CompiledProgram) : Prop :=
  ∃ main body ret rest code,
    program.functions.lookup program.mainFuncId = some main ∧
    program.instructions.drop main.entryPc = body ++ ret :: rest ∧ ret.opcode = .return ∧
    (∀ instr ∈ body, instr.opcode ≠ .return) ∧ JitCompiler.compile program = some code ∧
    ∀ origin cpu, Called origin code cpu → FrameLayout program main body origin code cpu

/-! ## The frame of a call -/

section Frame

variable {arg1 arg1' : Int32} {rbp : Word} {i : Nat}

/-- The frame that a call makes. -/
def callFrame (m : Machine) : Frame where
  base := m.regs .rsp
  returnAddress := read m.mem (m.regs .rsp)
  callerRbp := m.regs .rbp
  reserved := 1024
  room := maxOperandStack
  small := by decide

theorem outside_callFrame (m : Machine) : (callFrame m).Outside m := ⟨rfl, rfl, rfl⟩

theorem pointer_callFrame (cpu : Cpu) : (callFrame cpu.machine).pointer = framePointer cpu := by
  rw [Frame.pointer, cell_succ, cell_zero]
  rfl

/-- A local slot has a word of its own. -/
theorem localWord_eq (h : IsSlot main arg1) (hlocals : main.localCount ≤ maxLocalSlots)
    (rbp : Word) : localWord rbp arg1 = cell rbp (asUsize arg1 + 1) := by
  have hlt := Nat.lt_of_lt_of_le h.2 hlocals
  rw [localWord, NativeFrame.ofInt_localOffset h.1 rfl hlt, ← BitVec.sub_eq_add_neg, cell]

theorem asUsize_inj (h : 0 ≤ arg1) (h' : 0 ≤ arg1') (heq : asUsize arg1 = asUsize arg1') :
    arg1 = arg1' := by
  rw [Int32.le_iff_toInt_le, Int32.toInt_zero] at h h'
  rw [asUsize, asUsize] at heq
  have := arg1.toInt_lt
  have := arg1'.toInt_lt
  exact Int32.toInt_inj.mp (by omega)

theorem pcOffset_mono {j : Nat} (h : i ≤ j) : pcOffset body i ≤ pcOffset body j := by
  have hsublist := (List.take_prefix_take_left h : body.take i <+: body.take j)
  exact Nat.add_le_add_left (hsublist.sublist.flatMap _).length_le _

end Frame

/-! ## Calls -/

namespace CertifiedMain

open JitCompiler

variable {origin : Word} {code : List Byte} {m : Machine} {cpu cpu' : Cpu} {i j : Nat}

theorem compile_eq (h : CertifiedMain program main body) : compile program = some (emitPrologue ++
    (body.flatMap compileInstruction ++ (MachineCode.pop .rax ++ emitEpilogue))) := by
  obtain ⟨ret, rest, hcode, hret⟩ := h.code
  exact JitCompiler.compile_eq h.lookup h.single hcode h.supported hret

/-- The whole code, but for its `ret`. -/
def listing (body : List Instruction) : Listing :=
  prologuePieces ++ (mainPieces body ++ epiloguePieces)

/-- Where the pieces of the `i`-th instruction begin. -/
def pieceIndex (body : List Instruction) (i : Nat) : Nat := ((body.take i).flatMap pieces).length

theorem framed (h : CertifiedMain program main body) (hcode : compile program = some code)
    (hsize : code.length < 2 ^ 47) (m : Machine) : ∃ depth, Framed code (callFrame m)
      main.localCount prologuePieces (mainPieces body) epiloguePieces ⟨depth, false⟩ := by
  obtain ⟨depth, hall⟩ := h.exists_keepsAll
  refine ⟨depth, hsize.trans (by decide), ⟨MachineCode.ret, fun _ ↦ rfl, ?_⟩, h.localCount_le, rfl,
    hall, rfl⟩
  rw [h.compile_eq] at hcode
  rw [← Option.some_inj.mp hcode, Listing.bytes_append, Listing.bytes_append, mainPieces,
    Listing.bytes_append, bytes_flatMap_pieces h.supported]
  simp [prologuePieces, emitPrologue, epiloguePieces, emitEpilogue, popRax]

theorem take_mainPieces (body : List Instruction) (i : Nat) :
    (mainPieces body).take (pieceIndex body i) = (body.take i).flatMap pieces := by
  have hsplit : body.flatMap pieces =
      (body.take i).flatMap pieces ++ (body.drop i).flatMap pieces := by
    rw [← List.flatMap_append, List.take_append_drop]
  rw [mainPieces, hsplit, List.append_assoc, pieceIndex, List.take_left]

theorem pieceIndex_lt (body : List Instruction) (i : Nat) :
    pieceIndex body i < (mainPieces body).length := by
  rw [mainPieces, List.length_append]
  exact Nat.lt_succ_of_le ((List.take_sublist i body).flatMap pieces).length_le

/-- The code of an instruction begins with its pieces. -/
theorem offset_pieceIndex (h : CertifiedMain program main body) (i : Nat) :
    (listing body).offset (3 + pieceIndex body i) = pcOffset body i := by
  have hbody : ∀ instr ∈ body.take i,
      jitSupportsOpcode instr.opcode = true ∧ instr.opcode ≠ .return :=
    fun instr hmem ↦ h.supported instr (List.mem_of_mem_take hmem)
  have hprologue : prologuePieces.length = 3 := rfl
  rw [Listing.offset, listing, ← hprologue, List.take_length_add_append,
    List.take_append_of_le_length (pieceIndex_lt body i).le, take_mainPieces, Listing.bytes_append,
    List.length_append, bytes_flatMap_pieces hbody, pcOffset]
  rfl

theorem pieceIndex_le (body : List Instruction) (i : Nat) :
    3 + pieceIndex body i ≤ (listing body).length := by
  have := pieceIndex_lt body i
  rw [listing, List.length_append, List.length_append]
  simp only [prologuePieces, List.length_cons, List.length_nil]
  omega

/-- What the processor is about to execute is a piece of the code. -/
theorem atPiece_of_aboutTo (h : CertifiedMain program main body)
    (hcode : compile program = some code) (hcalled : Called origin code ⟨origin, m⟩)
    (hreaches : Stepping.Reaches (X86.step origin code) ⟨origin, m⟩ cpu')
    (hoffset : codeOffset origin cpu' < code.length) :
    ∃ j, AtPiece origin (listing body) m j cpu' ∧
      codeOffset origin cpu' = (listing body).offset j := by
  obtain ⟨depth, hframed⟩ := h.framed hcode hcalled.size m
  obtain ⟨ret, hret, hbytes⟩ := hframed.bytes
  rcases hframed.atPiece_of_reaches (outside_callFrame m) hcalled.outside hreaches with
    ⟨j, hat⟩ | hrip
  · exact ⟨j, hat, hat.offset_eq hbytes hframed.size⟩
  · have houtside := hcalled.outside
    rw [codeOffset, hrip] at hoffset
    exact absurd hoffset (Nat.not_lt.mpr houtside)

theorem offset_lt_of_aboutTo {instr : Instr} (h : AboutTo origin code cpu instr) :
    codeOffset origin cpu < code.length := by
  obtain ⟨rest, hdecode⟩ := h
  by_contra hle
  rw [List.drop_eq_nil_of_le (Nat.le_of_not_lt hle)] at hdecode
  cases hdecode

/-- The shape of the frame where the code of an instruction begins. -/
theorem fits_of_offset (h : CertifiedMain program main body) (hcode : compile program = some code)
    (hcalled : Called origin code ⟨origin, m⟩) (hi : i ≤ body.length)
    (hreaches : Stepping.Reaches (X86.step origin code) ⟨origin, m⟩ cpu')
    (hoffset : codeOffset origin cpu' = pcOffset body i) :
    ∃ st, stateAt program program.mainFuncId (main.entryPc + i) = some st ∧
      (callFrame m).Fits ⟨st.stackDepth, false⟩ cpu'.machine := by
  obtain ⟨depth, hframed⟩ := h.framed hcode hcalled.size m
  obtain ⟨st, hst, hall⟩ := h.exists_stateAt hi
  have hlt : codeOffset origin cpu' < code.length := by
    obtain ⟨ret, hret, hbytes⟩ := hframed.bytes
    have hpos := hret.length_pos
    have hle := (listing body).offset_le (3 + pieceIndex body i)
    rw [hoffset, ← h.offset_pieceIndex, hbytes, List.length_append]
    exact Nat.lt_of_le_of_lt hle (Nat.lt_add_of_pos_right hpos)
  obtain ⟨j, hat, hj⟩ := h.atPiece_of_aboutTo hcode hcalled hreaches hlt
  obtain rfl := Listing.offset_inj hat.le (pieceIndex_le body i)
    (hj.symm.trans (hoffset.trans (h.offset_pieceIndex i).symm))
  rw [← take_mainPieces] at hall
  exact ⟨st, hst, hframed.fits (outside_callFrame m) hat (pieceIndex_lt body i).le hall⟩

/-- Within the code of the body, the processor is at a piece of the body. -/
theorem exists_piece (h : CertifiedMain program main body) (hcode : compile program = some code)
    (hcalled : Called origin code ⟨origin, m⟩)
    (hreaches : Stepping.Reaches (X86.step origin code) ⟨origin, m⟩ cpu') {instr : Instr}
    (habout : AboutTo origin code cpu' instr) (hle : pcOffset body i ≤ codeOffset origin cpu')
    (hge : codeOffset origin cpu' ≤ pcOffset body body.length) :
    ∃ k, pieceIndex body i ≤ k ∧ k ≤ pieceIndex body body.length ∧
      AtPiece origin (listing body) m (3 + k) cpu' ∧
      codeOffset origin cpu' = (listing body).offset (3 + k) ∧
      (Listing.instrs (mainPieces body))[k]? = some instr := by
  obtain ⟨depth, hframed⟩ := h.framed hcode hcalled.size m
  obtain ⟨ret, hret, hbytes⟩ := hframed.bytes
  obtain ⟨j, hat, hj⟩ := h.atPiece_of_aboutTo hcode hcalled hreaches (offset_lt_of_aboutTo habout)
  obtain ⟨rest, hdecode⟩ := habout
  have hbounds : 3 + pieceIndex body i ≤ j ∧ j ≤ 3 + pieceIndex body body.length := by
    rw [hj, ← h.offset_pieceIndex] at hle hge
    constructor
    · by_contra hlt
      have := (Listing.offset_lt_iff hat.le (pieceIndex_le body i)).mpr (Nat.lt_of_not_le hlt)
      omega
    · by_contra hlt
      have := (Listing.offset_lt_iff (pieceIndex_le body _) hat.le).mpr (Nat.lt_of_not_le hlt)
      omega
  obtain ⟨k, rfl⟩ := Nat.exists_eq_add_of_le ((Nat.le_add_right 3 _).trans hbounds.1)
  refine ⟨k, by omega, by omega, hat, hj, ?_⟩
  have hlt : k < (mainPieces body).length := by
    have := pieceIndex_lt body body.length
    omega
  rcases hat.instr_of_decode hbytes hframed.size hret hdecode with hinstr | ⟨hlast, -⟩
  · have hhead : (Listing.instrs prologuePieces).length = 3 := rfl
    rw [Listing.instrs_append, Listing.instrs_append,
      List.getElem?_append_right (by omega), hhead, Nat.add_sub_cancel_left,
      List.getElem?_append_left (by rwa [Listing.instrs, List.length_map])] at hinstr
    exact hinstr
  · rw [List.length_append, List.length_append] at hlast
    simp only [prologuePieces, List.length_cons, List.length_nil] at hlast
    omega

/-- The pieces between the beginnings of two instructions are those of the first one. -/
theorem mem_pieces {x : Instr} {k : Nat} (hi : body[i]? = some instr)
    (hx : (Listing.instrs (mainPieces body))[k]? = some x) (hle : pieceIndex body i ≤ k)
    (hlt : k < pieceIndex body (i + 1)) : x ∈ (pieces instr).instrs := by
  obtain ⟨hbody, rfl⟩ := List.getElem?_eq_some_iff.mp hi
  have htake := take_mainPieces body (i + 1)
  rw [List.take_succ_eq_append_getElem hbody, List.flatMap_append, List.flatMap_singleton] at htake
  rw [Listing.instrs, List.getElem?_map, ← List.getElem?_take_of_lt hlt, htake,
    List.getElem?_append_right hle, ← List.getElem?_map] at hx
  exact List.mem_of_getElem? hx

/-- The operands of an instruction are checked. -/
theorem operandsOk (h : CertifiedMain program main body) (hi : body[i]? = some instr) :
    ∃ range, range.info = main ∧ OperandsOk program range instr := by
  have hlt := (List.getElem?_eq_some_iff.mp hi).1
  obtain ⟨st, hst, -⟩ := h.exists_stateAt hlt.le
  obtain ⟨range, traps, hinfo, -, hcert⟩ := h.certified
  obtain ⟨instr', hinstr, hops, -⟩ := hcert.step _ st hst
  obtain rfl := Option.some_inj.mp ((h.getElem? hi).symm.trans hinstr)
  exact ⟨range, hinfo, hops⟩

/-- Only the code of `LoadLocal` and `StoreLocal` names an address, that of the local. -/
theorem dataAccesses_pieces (instr : Instruction) (m : Machine) :
    ∀ x ∈ (pieces instr).instrs, ∀ a ∈ x.dataAccesses m,
      (instr.opcode = .loadLocal ∨ instr.opcode = .storeLocal) ∧
        a = localWord (m.regs .rbp) instr.arg1 := by
  intro x hx a ha
  have hmem : a ∈ (pieces instr).instrs.flatMap (Instr.dataAccesses m) :=
    List.mem_flatMap.mpr ⟨x, hx, ha⟩
  obtain ⟨opcode, arg1, arg2⟩ := instr
  cases opcode with
  | loadLocal =>
    have hone : a ∈ [m.address (some .rbp) none (BitVec.ofInt 64 (localOffset arg1).toInt)] := hmem
    exact ⟨.inl rfl, (List.mem_singleton.mp hone).trans (NativeFrame.address_local m _)⟩
  | storeLocal =>
    have hone : a ∈ [m.address (some .rbp) none (BitVec.ofInt 64 (localOffset arg1).toInt)] := hmem
    exact ⟨.inr rfl, (List.mem_singleton.mp hone).trans (NativeFrame.address_local m _)⟩
  -- no other instruction names a word of memory
  | _ => exact absurd hmem List.not_mem_nil

theorem uses (h : CertifiedMain program main body) (hcode : compile program = some code)
    (hcalled : Called origin code ⟨origin, m⟩) {x : Instr} {a : Word} (hi : body[i]? = some instr)
    (hreaches : Stepping.Reaches (X86.step origin code) ⟨origin, m⟩ cpu')
    (hle : pcOffset body i ≤ codeOffset origin cpu')
    (hlt : codeOffset origin cpu' < pcOffset body (i + 1)) (habout : AboutTo origin code cpu' x)
    (ha : a ∈ x.dataAccesses cpu'.machine) :
    (instr.opcode = .loadLocal ∨ instr.opcode = .storeLocal) ∧ IsSlot main instr.arg1 ∧
      a = localWord (framePointer ⟨origin, m⟩) instr.arg1 := by
  obtain ⟨depth, hframed⟩ := h.framed hcode hcalled.size m
  have hbody : i + 1 ≤ body.length := (List.getElem?_eq_some_iff.mp hi).1
  obtain ⟨k, hk, -, hat, hoffset, hinstr⟩ :=
    h.exists_piece hcode hcalled hreaches habout hle (hlt.le.trans (pcOffset_mono hbody))
  have hkle : k ≤ (mainPieces body).length := by
    have hk := (List.getElem?_eq_some_iff.mp hinstr).1
    rw [Listing.instrs, List.length_map] at hk
    exact hk.le
  rw [hoffset, ← h.offset_pieceIndex, Listing.offset_lt_iff hat.le (pieceIndex_le body _)] at hlt
  obtain ⟨hop, rfl⟩ := dataAccesses_pieces instr cpu'.machine x
    (mem_pieces hi hinstr hk (Nat.lt_of_add_lt_add_left hlt)) a ha
  obtain ⟨shape, hall, -⟩ := hframed.exists_keepsAll k
  obtain ⟨range, rfl, hops⟩ := h.operandsOk hi
  refine ⟨hop, ?_, ?_⟩
  · rw [OperandsOk] at hops
    rcases hop with hop | hop
    all_goals
      rw [hop] at hops
      exact hops
  · rw [(hframed.fits (outside_callFrame m) hat hkle hall).rbp, pointer_callFrame ⟨origin, m⟩]

theorem below (h : CertifiedMain program main body) (hcode : compile program = some code)
    (hcalled : Called origin code ⟨origin, m⟩) {x : Instr} {a y : Word}
    (hreaches : Stepping.Reaches (X86.step origin code) ⟨origin, m⟩ cpu')
    (hle : pcOffset body 0 ≤ codeOffset origin cpu')
    (hge : codeOffset origin cpu' ≤ pcOffset body body.length) (habout : AboutTo origin code cpu' x)
    (ha : a ∈ x.stackAccesses cpu'.machine) (hy : InWord a y) :
    BelowReserved (framePointer ⟨origin, m⟩) y := by
  obtain ⟨depth, hframed⟩ := h.framed hcode hcalled.size m
  obtain ⟨k, -, -, hat, -, hinstr⟩ := h.exists_piece hcode hcalled hreaches habout hle hge
  obtain ⟨n, hpos, hroom, rfl⟩ := (hframed.accesses (outside_callFrame m) hat hinstr).1 a ha
  obtain ⟨n, rfl⟩ := Nat.exists_eq_add_of_le' hpos
  have hlimit : (callFrame m).room = 1000 := rfl
  have hreserved : (callFrame m).reserved = 1024 := rfl
  rw [pointer_callFrame ⟨origin, m⟩, ← Nat.add_assoc] at hy
  obtain ⟨hlow, hhigh⟩ := hy.depth (by omega)
  rw [BelowReserved, show maxOperandStack = 1000 from rfl]
  omega

theorem untouched (h : CertifiedMain program main body) (hcode : compile program = some code)
    (hcalled : Called origin code ⟨origin, m⟩) {x : Instr} {a y : Word} {arg1 : Int32}
    (hreaches : Stepping.Reaches (X86.step origin code) ⟨origin, m⟩ cpu')
    (habout : AboutTo origin code cpu' x) (ha : a ∈ x.stackAccesses cpu'.machine)
    (hslot : IsSlot main arg1) (hy : InWord a y) :
    ¬InWord (localWord (framePointer ⟨origin, m⟩) arg1) y := by
  intro hlocal
  obtain ⟨depth, hframed⟩ := h.framed hcode hcalled.size m
  obtain ⟨j, hat, -⟩ := h.atPiece_of_aboutTo hcode hcalled hreaches (offset_lt_of_aboutTo habout)
  obtain ⟨rest, hdecode⟩ := habout
  have hslots : maxLocalSlots = 1024 := rfl
  have hlimit : (callFrame m).room = 1000 := rfl
  have hreserved : (callFrame m).reserved = 1024 := rfl
  have hlt := Nat.lt_of_lt_of_le hslot.2 h.localCount_le
  rw [localWord_eq hslot h.localCount_le, ← pointer_callFrame ⟨origin, m⟩,
    Frame.cell_pointer] at hlocal
  rcases hframed.stackAccess_cases (outside_callFrame m) hat hdecode ha with
    rfl | rfl | ⟨n, hpos, hroom, rfl⟩
  · rw [← cell_zero (callFrame m).base] at hy
    have := hy.cell_inj hlocal (by omega) (by omega)
    omega
  · have := hy.cell_inj hlocal (by omega) (by omega)
    omega
  · rw [Frame.cell_pointer] at hy
    have := hy.cell_inj hlocal (by omega) (by omega)
    omega

theorem visits (h : CertifiedMain program main body) (hcode : compile program = some code)
    (hcalled : Called origin code ⟨origin, m⟩) (i : Nat) :
    ∃ cpu', Stepping.Reaches (X86.step origin code) ⟨origin, m⟩ cpu' ∧
      codeOffset origin cpu' = pcOffset body i := by
  obtain ⟨depth, hframed⟩ := h.framed hcode hcalled.size m
  obtain ⟨ret, hret, hbytes⟩ := hframed.bytes
  obtain ⟨m', hexec, -⟩ := hframed.exists_execAll (outside_callFrame m)
  obtain ⟨cpu', hreaches, hat⟩ :=
    @exists_reaches_atPiece origin _ _ _ _ _ _ hbytes hframed.size hexec (pieceIndex_le body i)
  exact ⟨cpu', hreaches, (hat.offset_eq hbytes hframed.size).trans (h.offset_pieceIndex i)⟩

theorem frameLayout (h : CertifiedMain program main body) (hcode : compile program = some code)
    (hcalled : Called origin code cpu) : FrameLayout program main body origin code cpu := by
  obtain ⟨rip, m⟩ := cpu
  obtain rfl : rip = origin := hcalled.rip
  obtain ⟨depth, hframed⟩ := h.framed hcode hcalled.size m
  have hslots : maxLocalSlots = 1024 := rfl
  refine ⟨fun arg1 hslot x hx ↦ ?_, fun arg1 arg1' hslot hslot' hne x hx hx' ↦ ?_,
    fun i instr cpu' x hi hreaches hle hlt habout a ha ↦
      h.uses hcode hcalled hi hreaches hle hlt habout ha,
    fun i _ ↦ h.visits hcode hcalled i, fun i hi cpu' hreaches hoffset ↦ ?_,
    fun cpu' x hreaches hle hge habout a ha y hy ↦
      h.below hcode hcalled hreaches hle hge habout ha hy,
    fun cpu' x hreaches habout a ha arg1 hslot y hy ↦
      h.untouched hcode hcalled hreaches habout ha hslot hy, ?_⟩
  · have hlt := Nat.lt_of_lt_of_le hslot.2 h.localCount_le
    rw [localWord_eq hslot h.localCount_le] at hx
    obtain ⟨hlow, hhigh⟩ := hx.depth (by omega)
    rw [Reserved]
    omega
  · have hlt := Nat.lt_of_lt_of_le hslot.2 h.localCount_le
    have hlt' := Nat.lt_of_lt_of_le hslot'.2 h.localCount_le
    rw [localWord_eq hslot h.localCount_le] at hx
    rw [localWord_eq hslot' h.localCount_le] at hx'
    have heq := hx.cell_inj hx' (by omega) (by omega)
    exact hne (asUsize_inj hslot.1 hslot'.1 (Nat.succ_inj.mp heq))
  · obtain ⟨st, hst, hfits⟩ := h.fits_of_offset hcode hcalled hi hreaches hoffset
    have hroom : st.stackDepth ≤ 1000 := hfits.height_le
    refine ⟨hfits.rbp.trans (pointer_callFrame ⟨rip, m⟩), st, hst, ?_⟩
    rw [hfits.rsp, pointer_callFrame ⟨rip, m⟩, sub_cell, BitVec.toNat_ofNat]
    have hreserved : (callFrame m).reserved = 1024 := rfl
    dsimp only
    omega
  · exact hframed.returns (outside_callFrame m) hcalled.outside

end CertifiedMain

/-- **The frame of an eligible program is laid out well.** -/
theorem framesLaidOut_of_eligible
    (h : (verify program).backendEligibility.jit.eligible = true) : FramesLaidOut program := by
  obtain ⟨main, body, hmain⟩ := exists_certifiedMain h
  obtain ⟨ret, rest, hcode, hret⟩ := hmain.code
  exact ⟨main, body, ret, rest, _, hmain.lookup, hcode, hret,
    fun instr hmem ↦ (hmain.supported instr hmem).2, hmain.compile_eq,
    fun _ _ hcalled ↦ hmain.frameLayout hmain.compile_eq hcalled⟩

/-- A program whose last local meets the end of the reserved bytes. -/
def usesLastSlot : CompiledProgram where
  instructions := [⟨.loadConst, 7, 0⟩, ⟨.storeLocal, 1023, 0⟩, ⟨.loadLocal, 1023, 0⟩, ⟨.dup, 0, 0⟩,
    ⟨.lt, 0, 0⟩, ⟨.return, 0, 0⟩]
  functions := ⟨[⟨0, "main", 0, 0, 0, 1024⟩], by simp⟩
  globals := ∅
  mainFuncId := 0
  constants := []

theorem framesLaidOut_usesLastSlot : FramesLaidOut usesLastSlot := by
  refine framesLaidOut_of_eligible ?_
  rw [verify, functionRanges_of_sorted (by decide)]
  decide +kernel

end MiniLang
