import MiniLang.Lib.ByteMemory
import MiniLang.Lib.Stepping

/-!
# A fragment of x86-64

Decoding and execution of the 64-bit instructions that a simple code generator needs: stack
operations, moves, integer arithmetic, comparisons and `ret`. An encoding outside the fragment does
not decode, and an instruction that reads flags left undefined does not execute, so that what is
shown to run here runs on a processor.

## Decoding

`decode` reads an optional prefix, the opcode, and for an operand the byte that names its registers,
with an index byte and a displacement where that byte asks for them. It follows the instruction
format, not the bytes that some generator emits: two encodings of one instruction decode alike, and
a wrong one decodes to whatever a processor would make of it.

## Blocks

`Block P bytes Q` says of a piece of code that it takes machines with `P` to machines with `Q`,
wherever it stands. Pieces are composed by `append`, and `reaches` turns a block into a run of the
processor through the code that contains it. So a generator is verified piece by piece, with no
offsets to keep track of.
-/

namespace X86

open ByteMemory

inductive Reg
  | rax | rcx | rdx | rbx | rsp | rbp | rsi | rdi | r8 | r9 | r10 | r11 | r12 | r13 | r14 | r15
deriving DecidableEq

namespace Reg

/-- The number of a register in an encoding. -/
def num : Reg → BitVec 4
  | rax => 0 | rcx => 1 | rdx => 2 | rbx => 3 | rsp => 4 | rbp => 5 | rsi => 6 | rdi => 7
  | r8 => 8 | r9 => 9 | r10 => 10 | r11 => 11 | r12 => 12 | r13 => 13 | r14 => 14 | r15 => 15

def ofNum (n : BitVec 4) : Reg :=
  match n.toNat with
  | 0 => rax | 1 => rcx | 2 => rdx | 3 => rbx | 4 => rsp | 5 => rbp | 6 => rsi | 7 => rdi
  | 8 => r8 | 9 => r9 | 10 => r10 | 11 => r11 | 12 => r12 | 13 => r13 | 14 => r14 | _ => r15

end Reg

/-- Conditions of `setcc`. -/
inductive Cond
  | e | ne | l | ge | le | g
deriving DecidableEq

inductive Operand
  | reg (reg : Reg)
  /-- `[base + index * 2 ^ scale + disp]` -/
  | mem (base : Option Reg) (index : Option (Reg × Nat)) (disp : Word)
  | ripRelative (disp : Word)
deriving DecidableEq

inductive Instr
  | push (src : Reg)
  | pop (dst : Reg)
  | movImm (dst : Reg) (imm : Word)
  | mov (dst src : Operand)
  | add (dst src : Reg)
  | sub (dst src : Reg)
  | subImm (dst : Reg) (imm : Word)
  | imul (dst src : Reg)
  | neg (dst : Reg)
  | cmp (left right : Reg)
  | test (left right : Reg)
  /-- Set the low byte of `dst`. -/
  | set (cond : Cond) (dst : Reg)
  /-- Zero-extend the low byte of `src`. -/
  | movzx (dst src : Reg)
  /-- Sign-extend the low half of `src`. -/
  | movsxd (dst src : Reg)
  | ret
deriving DecidableEq

/-! ## Decoding -/

/-- The bits of a REX prefix. -/
structure Rex where
  w : Bool
  r : Bool
  x : Bool
  b : Bool

def Rex.none : Rex := ⟨false, false, false, false⟩

def Rex.ofByte (byte : Byte) : Rex :=
  ⟨byte.getLsbD 3, byte.getLsbD 2, byte.getLsbD 1, byte.getLsbD 0⟩

/-- A register field, with its extension bit. -/
def regOf (extension : Bool) (field : BitVec 3) : Reg := .ofNum (BitVec.ofBool extension ++ field)

/-- A sign-extended byte. -/
def imm8 : List Byte → Option (Word × List Byte)
  | b :: rest => some (b.signExtend 64, rest)
  | _ => none

/-- A sign-extended double word, lowest byte first. -/
def imm32 : List Byte → Option (Word × List Byte)
  | b₀ :: b₁ :: b₂ :: b₃ :: rest => some ((b₃ ++ b₂ ++ b₁ ++ b₀).signExtend 64, rest)
  | _ => none

/-- The displacement that a `mod` field announces. -/
def displacement (mod : BitVec 2) (bytes : List Byte) : Option (Word × List Byte) :=
  if mod = 0 then some (0, bytes) else if mod = 1 then imm8 bytes else imm32 bytes

/-- A SIB byte and the displacement after it. -/
def sib (rex : Rex) (mod : BitVec 2) : List Byte → Option (Operand × List Byte)
  | [] => none
  | byte :: rest => do
    let number := BitVec.ofBool rex.x ++ byte.extractLsb' 3 3
    let index := if number = 4 then none else some (Reg.ofNum number, (byte.extractLsb' 6 2).toNat)
    if byte.extractLsb' 0 3 = 5 ∧ mod = 0 then
      let (disp, rest) ← imm32 rest
      return (.mem none index disp, rest)
    else
      let (disp, rest) ← displacement mod rest
      return (.mem (some (regOf rex.b (byte.extractLsb' 0 3))) index disp, rest)

/-- A ModRM byte with what belongs to it: the register field and the other operand. -/
def modRM (rex : Rex) : List Byte → Option (Reg × Operand × List Byte)
  | [] => none
  | byte :: rest => do
    let mod := byte.extractLsb' 6 2
    let reg := regOf rex.r (byte.extractLsb' 3 3)
    let rm := byte.extractLsb' 0 3
    if mod = 3 then return (reg, .reg (regOf rex.b rm), rest)
    else if rm = 4 then
      let (operand, rest) ← sib rex mod rest
      return (reg, operand, rest)
    else if rm = 5 ∧ mod = 0 then
      let (disp, rest) ← imm32 rest
      return (reg, .ripRelative disp, rest)
    else
      let (disp, rest) ← displacement mod rest
      return (reg, .mem (some (regOf rex.b rm)) none disp, rest)

/-- A ModRM byte whose operands are registers. -/
def modRegs (rex : Rex) (bytes : List Byte) : Option (Reg × Reg × List Byte) := do
  match ← modRM rex bytes with
  | (reg, .reg rm, rest) => return (reg, rm, rest)
  | _ => none

/-- A ModRM byte whose register field extends the opcode by `digit`. -/
def modDigit (rex : Rex) (digit : BitVec 3) : List Byte → Option (Reg × List Byte)
  | [] => none
  | byte :: rest =>
    if byte.extractLsb' 6 2 = 3 ∧ byte.extractLsb' 3 3 = digit then
      some (regOf rex.b (byte.extractLsb' 0 3), rest)
    else none

def cond? (opcode : Byte) : Option Cond :=
  match opcode.toNat with
  | 0x94 => some .e
  | 0x95 => some .ne
  | 0x9C => some .l
  | 0x9D => some .ge
  | 0x9E => some .le
  | 0x9F => some .g
  | _ => none

/-- Opcodes after the escape byte `0F`. -/
def decodeEscaped (rex : Rex) : List Byte → Option (Instr × List Byte)
  | [] => none
  | opcode :: rest =>
    match opcode.toNat with
    | 0xAF => do
      guard rex.w
      let (reg, rm, rest) ← modRegs rex rest
      return (.imul reg rm, rest)
    | 0xB6 => do
      guard rex.w
      let (reg, rm, rest) ← modRegs rex rest
      return (.movzx reg rm, rest)
    | _ => do
      let cond ← cond? opcode
      let (dst, rest) ← modDigit rex 0 rest
      -- without a REX prefix these numbers name the second bytes of other registers
      guard (dst ∉ [.rsp, .rbp, .rsi, .rdi])
      return (.set cond dst, rest)

def decodeOpcode (rex : Rex) : List Byte → Option (Instr × List Byte)
  | [] => none
  | opcode :: rest =>
    if opcode.extractLsb' 3 5 = 0b01010 then
      some (.push (regOf rex.b (opcode.extractLsb' 0 3)), rest)
    else if opcode.extractLsb' 3 5 = 0b01011 then
      some (.pop (regOf rex.b (opcode.extractLsb' 0 3)), rest)
    else match opcode.toNat with
    | 0x0F => decodeEscaped rex rest
    | 0xC3 => some (.ret, rest)
    | 0x01 => do
      guard rex.w
      let (reg, rm, rest) ← modRegs rex rest
      return (.add rm reg, rest)
    | 0x29 => do
      guard rex.w
      let (reg, rm, rest) ← modRegs rex rest
      return (.sub rm reg, rest)
    | 0x39 => do
      guard rex.w
      let (reg, rm, rest) ← modRegs rex rest
      return (.cmp rm reg, rest)
    | 0x85 => do
      guard rex.w
      let (reg, rm, rest) ← modRegs rex rest
      return (.test rm reg, rest)
    | 0x63 => do
      guard rex.w
      let (reg, rm, rest) ← modRegs rex rest
      return (.movsxd reg rm, rest)
    | 0x89 => do
      guard rex.w
      let (reg, rm, rest) ← modRM rex rest
      return (.mov rm (.reg reg), rest)
    | 0x8B => do
      guard rex.w
      let (reg, rm, rest) ← modRM rex rest
      return (.mov (.reg reg) rm, rest)
    | 0xC7 => do
      guard rex.w
      let (dst, rest) ← modDigit rex 0 rest
      let (imm, rest) ← imm32 rest
      return (.movImm dst imm, rest)
    | 0xF7 => do
      guard rex.w
      let (dst, rest) ← modDigit rex 3 rest
      return (.neg dst, rest)
    | 0x83 => do
      guard rex.w
      let (dst, rest) ← modDigit rex 5 rest
      let (imm, rest) ← imm8 rest
      return (.subImm dst imm, rest)
    | 0x81 => do
      guard rex.w
      let (dst, rest) ← modDigit rex 5 rest
      let (imm, rest) ← imm32 rest
      return (.subImm dst imm, rest)
    | _ => none

/-- The first instruction of `bytes` and the bytes after it. -/
def decode : List Byte → Option (Instr × List Byte)
  | [] => none
  | byte :: rest =>
    if byte.extractLsb' 4 4 = 4 then decodeOpcode (.ofByte byte) rest
    else decodeOpcode .none (byte :: rest)

/-! ## Execution -/

structure Flags where
  zero : Bool
  sign : Bool
  overflow : Bool
deriving DecidableEq

/-- The state but for the instruction pointer. Undefined flags are `none`. -/
structure Machine where
  regs : Reg → Word
  flags : Option Flags
  mem : Memory

def Cond.holds (flags : Flags) : Cond → Bool
  | e => flags.zero
  | ne => !flags.zero
  | l => flags.sign != flags.overflow
  | ge => flags.sign == flags.overflow
  | le => flags.zero || flags.sign != flags.overflow
  | g => !flags.zero && flags.sign == flags.overflow

namespace Machine

def setReg (m : Machine) (reg : Reg) (value : Word) : Machine :=
  { m with regs := Function.update m.regs reg value }

theorem regs_setReg_self (m : Machine) (reg : Reg) (value : Word) :
    (m.setReg reg value).regs reg = value :=
  Function.update_self ..

theorem regs_setReg_of_ne (m : Machine) {reg other : Reg} (h : other ≠ reg) (value : Word) :
    (m.setReg reg value).regs other = m.regs other :=
  Function.update_of_ne h ..

def resultFlags (result : Word) (overflow : Bool) : Option Flags :=
  some ⟨result = 0, result.msb, overflow⟩

/-- The address of a memory operand. -/
def address (m : Machine) (base : Option Reg) (index : Option (Reg × Nat)) (disp : Word) : Word :=
  ((base.map m.regs).getD 0) + ((index.map fun (reg, scale) ↦ m.regs reg <<< scale).getD 0) + disp

def load (m : Machine) : Operand → Option Word
  | .reg reg => some (m.regs reg)
  | .mem base index disp => some (read m.mem (m.address base index disp))
  | .ripRelative _ => none

def store (m : Machine) (value : Word) : Operand → Option Machine
  | .reg reg => some (m.setReg reg value)
  | .mem base index disp => some { m with mem := write m.mem (m.address base index disp) value }
  | .ripRelative _ => none

/-- `dst := result`, with flags. -/
def arith (m : Machine) (dst : Reg) (result : Word) (flags : Option Flags) : Machine :=
  { regs := Function.update m.regs dst result, flags := flags, mem := m.mem }

/-- Every instruction but `ret`. -/
def exec (m : Machine) : Instr → Option Machine
  | .push src =>
    let top := m.regs .rsp - 8
    some ⟨(m.setReg .rsp top).regs, m.flags, write m.mem top (m.regs src)⟩
  | .pop dst => some ((m.setReg .rsp (m.regs .rsp + 8)).setReg dst (read m.mem (m.regs .rsp)))
  | .movImm dst imm => some (m.setReg dst imm)
  | .mov dst src => do m.store (← m.load src) dst
  | .add dst src =>
    let result := m.regs dst + m.regs src
    some (m.arith dst result (resultFlags result ((m.regs dst).saddOverflow (m.regs src))))
  | .sub dst src =>
    let result := m.regs dst - m.regs src
    some (m.arith dst result (resultFlags result ((m.regs dst).ssubOverflow (m.regs src))))
  | .subImm dst imm =>
    let result := m.regs dst - imm
    some (m.arith dst result (resultFlags result ((m.regs dst).ssubOverflow imm)))
  | .imul dst src => some (m.arith dst (m.regs dst * m.regs src) none)
  | .neg dst =>
    let result := -m.regs dst
    some (m.arith dst result (resultFlags result ((0 : Word).ssubOverflow (m.regs dst))))
  | .cmp left right =>
    let overflow := (m.regs left).ssubOverflow (m.regs right)
    some { m with flags := resultFlags (m.regs left - m.regs right) overflow }
  | .test left right =>
    some { m with flags := resultFlags (m.regs left &&& m.regs right) false }
  | .set cond dst => do
    let flags ← m.flags
    let low : Byte := if cond.holds flags then 1 else 0
    return m.setReg dst ((m.regs dst).extractLsb' 8 56 ++ low)
  | .movzx dst src => some (m.setReg dst (((m.regs src).setWidth 8).setWidth 64))
  | .movsxd dst src => some (m.setReg dst (((m.regs src).setWidth 32).signExtend 64))
  | .ret => none

def execAll (m : Machine) (instrs : List Instr) : Option Machine := instrs.foldlM exec m

end Machine

structure Cpu where
  rip : Word
  machine : Machine

/-- How a run of a piece of code ends: control leaves the code, or an instruction does not
execute. -/
inductive Outcome
  | left (cpu : Cpu)
  | fault (cpu : Cpu)

/-- One instruction of `code`, which is loaded at `origin`. -/
def step (origin : Word) (code : List Byte) (cpu : Cpu) : Cpu ⊕ Outcome :=
  let offset := (cpu.rip - origin).toNat
  if code.length ≤ offset then .inr (.left cpu)
  else
    match decode (code.drop offset) with
    | none => .inr (.fault cpu)
    | some (.ret, _) =>
      let m := cpu.machine
      .inl ⟨read m.mem (m.regs .rsp), m.setReg .rsp (m.regs .rsp + 8)⟩
    | some (instr, rest) =>
      match cpu.machine.exec instr with
      | none => .inr (.fault cpu)
      | some m => .inl ⟨origin + BitVec.ofNat 64 (code.length - rest.length), m⟩

/-! ## Blocks -/

/-- `bytes` encode `instr`, whatever comes after them. -/
def Encodes (bytes : List Byte) (instr : Instr) : Prop :=
  ∀ rest, decode (bytes ++ rest) = some (instr, rest)

/-- `bytes` encode the instructions one after the other, none of them a `ret`. -/
inductive Assembles : List Byte → List Instr → Prop
  | nil : Assembles [] []
  | cons {bytes rest : List Byte} {instr : Instr} {instrs : List Instr} : Encodes bytes instr →
    Assembles rest instrs → Assembles (bytes ++ rest) (instr :: instrs)

variable {origin : Word} {code pre bytes post : List Byte} {instr : Instr} {instrs : List Instr}
  {m m' : Machine}

theorem Assembles.append {bytes' : List Byte} {instrs' : List Instr} (h : Assembles bytes instrs)
    (h' : Assembles bytes' instrs') : Assembles (bytes ++ bytes') (instrs ++ instrs') := by
  induction h with
  | nil => exact h'
  | cons hinstr _ ih =>
    rw [List.append_assoc]
    exact .cons hinstr ih

/-- The code at an offset. -/
theorem drop_offset (hcode : code = pre ++ post) (hlength : code.length < 2 ^ 64) :
    code.drop (origin + BitVec.ofNat 64 pre.length - origin).toNat = post := by
  subst hcode
  have hpre : pre.length < 2 ^ 64 := by
    rw [List.length_append] at hlength
    omega
  have hoffset : (origin + BitVec.ofNat 64 pre.length - origin).toNat = pre.length := by
    rw [BitVec.add_comm, BitVec.add_sub_cancel, BitVec.toNat_ofNat, Nat.mod_eq_of_lt hpre]
  rw [hoffset, List.drop_left']
  rfl

/-- What the processor finds at an offset. -/
theorem decode_offset (hcode : code = pre ++ (bytes ++ post)) (hlength : code.length < 2 ^ 64)
    (h : Encodes bytes instr) :
    (origin + BitVec.ofNat 64 pre.length - origin).toNat < code.length ∧
      decode (code.drop (origin + BitVec.ofNat 64 pre.length - origin).toNat) =
        some (instr, post) := by
  have hdrop := @drop_offset origin _ _ _ hcode hlength
  refine ⟨?_, by rw [hdrop, h post]⟩
  by_contra hle
  rw [List.drop_eq_nil_of_le (Nat.le_of_not_lt hle)] at hdrop
  obtain ⟨rfl, -⟩ := List.append_eq_nil_iff.mp hdrop.symm
  cases h []

/-- One instruction of a block. -/
theorem step_of_encodes (hcode : code = pre ++ (bytes ++ post)) (hlength : code.length < 2 ^ 64)
    (h : Encodes bytes instr) (hexec : m.exec instr = some m') :
    step origin code ⟨origin + BitVec.ofNat 64 pre.length, m⟩ =
      .inl ⟨origin + BitVec.ofNat 64 (pre ++ bytes).length, m'⟩ := by
  obtain ⟨hinside, hdecode⟩ := decode_offset hcode hlength h
  have hrest : code.length - post.length = (pre ++ bytes).length := by
    rw [hcode]
    simp only [List.length_append]
    omega
  rw [step]
  dsimp only
  rw [if_neg (Nat.not_le.mpr hinside), hdecode]
  cases instr with
  | ret => cases hexec
  | _ => simp only [hexec, hrest]

/-- **The block rule.** Control goes through a block of code with the effect of its
instructions. -/
theorem reaches_of_assembles (hcode : code = pre ++ (bytes ++ post))
    (hlength : code.length < 2 ^ 64) (h : Assembles bytes instrs)
    (hexec : m.execAll instrs = some m') :
    Stepping.Reaches (step origin code) ⟨origin + BitVec.ofNat 64 pre.length, m⟩
      ⟨origin + BitVec.ofNat 64 (pre ++ bytes).length, m'⟩ := by
  induction h generalizing pre m with
  | nil =>
    obtain rfl := Option.some_inj.mp hexec
    rw [List.append_nil]
    exact .refl _
  | @cons bytes rest instr instrs hinstr _ ih =>
    obtain ⟨m₁, hfirst, hrest⟩ := Option.bind_eq_some_iff.mp hexec
    have hcode' : code = pre ++ (bytes ++ (rest ++ post)) := by rw [hcode, List.append_assoc bytes]
    refine .head (step_of_encodes hcode' hlength hinstr hfirst) ?_
    rw [← List.append_assoc]
    exact ih (by rw [hcode', List.append_assoc]) hrest

/-- From a state with `P`, the block `bytes` executes and leads to one with `Q`. -/
def Block (P : Machine → Prop) (bytes : List Byte) (Q : Machine → Prop) : Prop :=
  ∃ instrs, Assembles bytes instrs ∧ ∀ m, P m → ∃ m', m.execAll instrs = some m' ∧ Q m'

namespace Block

variable {P Q R : Machine → Prop} {bytes' : List Byte}

theorem nil : Block P [] P := ⟨[], .nil, fun m hm ↦ ⟨m, rfl, hm⟩⟩

theorem single (h : Encodes bytes instr) (hexec : ∀ m, P m → ∃ m', m.exec instr = some m' ∧ Q m') :
    Block P bytes Q := by
  refine ⟨[instr], ?_, fun m hm ↦ ?_⟩
  · rw [← List.append_nil bytes]
    exact .cons h .nil
  · obtain ⟨m', hm', hQ⟩ := hexec m hm
    exact ⟨m', by rw [Machine.execAll, List.foldlM_cons, hm']; rfl, hQ⟩

theorem append (h : Block P bytes Q) (h' : Block Q bytes' R) : Block P (bytes ++ bytes') R := by
  obtain ⟨instrs, hbytes, hexec⟩ := h
  obtain ⟨instrs', hbytes', hexec'⟩ := h'
  refine ⟨instrs ++ instrs', hbytes.append hbytes', fun m hm ↦ ?_⟩
  obtain ⟨m₁, hm₁, hQ⟩ := hexec m hm
  obtain ⟨m₂, hm₂, hR⟩ := hexec' m₁ hQ
  refine ⟨m₂, ?_, hR⟩
  rw [Machine.execAll] at hm₁ hm₂ ⊢
  rw [List.foldlM_append, hm₁]
  exact hm₂

theorem mono {P' Q' : Machine → Prop} (h : Block P bytes Q) (hP : ∀ m, P' m → P m)
    (hQ : ∀ m, Q m → Q' m) : Block P' bytes Q' := by
  obtain ⟨instrs, hbytes, hexec⟩ := h
  refine ⟨instrs, hbytes, fun m hm ↦ ?_⟩
  obtain ⟨m', hm', hm'Q⟩ := hexec m (hP m hm)
  exact ⟨m', hm', hQ m' hm'Q⟩

theorem reaches (h : Block P bytes Q) (hcode : code = pre ++ (bytes ++ post))
    (hlength : code.length < 2 ^ 64) (hm : P m) : ∃ m', Q m' ∧
      Stepping.Reaches (step origin code) ⟨origin + BitVec.ofNat 64 pre.length, m⟩
        ⟨origin + BitVec.ofNat 64 (pre ++ bytes).length, m'⟩ := by
  obtain ⟨instrs, hbytes, hexec⟩ := h
  obtain ⟨m', hm', hQ⟩ := hexec m hm
  exact ⟨m', hQ, reaches_of_assembles hcode hlength hbytes hm'⟩

end Block

/-- `ret` hands control to the address on the stack. -/
theorem step_ret (hcode : code = pre ++ (bytes ++ post)) (hlength : code.length < 2 ^ 64)
    (h : Encodes bytes .ret) :
    step origin code ⟨origin + BitVec.ofNat 64 pre.length, m⟩ =
      .inl ⟨read m.mem (m.regs .rsp), m.setReg .rsp (m.regs .rsp + 8)⟩ := by
  obtain ⟨hinside, hdecode⟩ := decode_offset hcode hlength h
  rw [step]
  dsimp only
  rw [if_neg (Nat.not_le.mpr hinside), hdecode]

theorem step_of_outside {cpu : Cpu} (h : code.length ≤ (cpu.rip - origin).toNat) :
    step origin code cpu = .inr (.left cpu) := by
  rw [step]
  exact if_pos h

end X86
