import MiniLang.Lib.X86
import MiniLang.Bytecode.Verifier

/-!
# The JIT compiler

Bytecode to x86-64 machine code, for the one function and the opcodes that `supports_program` lets
through: for these no jump is emitted, so that there is nothing to patch and the code is what the
instructions emit one after the other. Mapping the code into executable memory is not modelled.
-/

namespace MiniLang

open ByteMemory X86

/-! ## Encoding -/

namespace MachineCode

/-- `reg as u8`. -/
def regByte (reg : Reg) : Byte := reg.num.setWidth 8

/-- REX prefix for 64-bit operations. -/
def rex (w : Bool) (r b : Reg) : List Byte :=
  let rex : Byte := 0x40
  let rex := if w then rex ||| 0x08 else rex
  let rex := if (regByte r).toNat ≥ 8 then rex ||| 0x04 else rex
  let rex := if (regByte b).toNat ≥ 8 then rex ||| 0x01 else rex
  if rex ≠ 0x40 then [rex] else []

def rexW (r b : Reg) : List Byte := rex true r b

/-- ModR/M byte. -/
def modrm (mode : Byte) (reg rm : Reg) : List Byte :=
  [mode <<< 6 ||| (regByte reg &&& 7) <<< 3 ||| (regByte rm &&& 7)]

/-- Emit a 32-bit value, little-endian. -/
def emitI32 (val : Int32) : List Byte :=
  [val.toBitVec.extractLsb' 0 8, val.toBitVec.extractLsb' 8 8, val.toBitVec.extractLsb' 16 8,
    val.toBitVec.extractLsb' 24 8]

/-- `offset as u8`. -/
def asU8 (offset : Int32) : Byte := offset.toBitVec.setWidth 8

def isI8 (offset : Int32) : Bool := -128 ≤ offset ∧ offset ≤ 127

/-- The prefix of the instructions that need none for their operand size. -/
def rexB (reg : Reg) : List Byte := if (regByte reg).toNat ≥ 8 then [0x41] else []

def push (reg : Reg) : List Byte := rexB reg ++ [0x50 + (regByte reg &&& 7)]

def pop (reg : Reg) : List Byte := rexB reg ++ [0x58 + (regByte reg &&& 7)]

/-- mov reg, imm32 (sign-extended) -/
def movImm32 (dst : Reg) (imm : Int32) : List Byte :=
  rexW .rax dst ++ [0xC7] ++ modrm 0b11 .rax dst ++ emitI32 imm

/-- mov dst, src (64-bit) -/
def mov (dst src : Reg) : List Byte := rexW src dst ++ [0x89] ++ modrm 0b11 src dst

/-- The memory operand of `movLoad` and `movStore`. -/
def memOperand (reg base : Reg) (offset : Int32) : List Byte :=
  let operand :=
    if offset = 0 ∧ regByte base ≠ 5 then modrm 0b00 reg base
    else if isI8 offset then modrm 0b01 reg base ++ [asU8 offset]
    else modrm 0b10 reg base ++ emitI32 offset
  -- RSP and R12 need a SIB byte
  if regByte base &&& 7 = 4 then operand ++ [0x24] else operand

/-- mov dst, [src + offset] -/
def movLoad (dst src : Reg) (offset : Int32) : List Byte :=
  rexW dst src ++ [0x8B] ++ memOperand dst src offset

/-- mov [dst + offset], src -/
def movStore (dst : Reg) (offset : Int32) (src : Reg) : List Byte :=
  rexW src dst ++ [0x89] ++ memOperand src dst offset

def add (dst src : Reg) : List Byte := rexW src dst ++ [0x01] ++ modrm 0b11 src dst

def sub (dst src : Reg) : List Byte := rexW src dst ++ [0x29] ++ modrm 0b11 src dst

/-- sub dst, imm32 -/
def subImm (dst : Reg) (imm : Int32) : List Byte :=
  rexW .rax dst ++
    if isI8 imm then [0x83] ++ modrm 0b11 .rbp dst ++ [asU8 imm]
    else [0x81] ++ modrm 0b11 .rbp dst ++ emitI32 imm

def imul (dst src : Reg) : List Byte := rexW dst src ++ [0x0F, 0xAF] ++ modrm 0b11 dst src

def neg (dst : Reg) : List Byte := rexW .rax dst ++ [0xF7] ++ modrm 0b11 .rbx dst

def cmp (dst src : Reg) : List Byte := rexW src dst ++ [0x39] ++ modrm 0b11 src dst

def test (dst src : Reg) : List Byte := rexW src dst ++ [0x85] ++ modrm 0b11 src dst

/-- The shape of the `setcc` instructions. -/
def setcc (opcode : Byte) (dst : Reg) : List Byte :=
  rexB dst ++ [0x0F, opcode] ++ modrm 0b11 .rax dst

def sete (dst : Reg) : List Byte := setcc 0x94 dst

def setne (dst : Reg) : List Byte := setcc 0x95 dst

def setl (dst : Reg) : List Byte := setcc 0x9C dst

def setg (dst : Reg) : List Byte := setcc 0x9F dst

def setle (dst : Reg) : List Byte := setcc 0x9E dst

def setge (dst : Reg) : List Byte := setcc 0x9D dst

/-- movzx dst, src (zero-extend byte to 64-bit) -/
def movzx (dst src : Reg) : List Byte := rexW dst src ++ [0x0F, 0xB6] ++ modrm 0b11 dst src

/-- movsxd dst, src (sign-extend 32-bit value to 64-bit) -/
def movsxd32 (dst src : Reg) : List Byte := rexW dst src ++ [0x63] ++ modrm 0b11 dst src

def ret : List Byte := [0xC3]

end MachineCode

/-! ## Compilation -/

namespace JitCompiler

open MachineCode

def supportsOpcode : Opcode → Bool
  | .loadConst | .loadLocal | .storeLocal | .add | .sub | .mul | .neg | .eq | .ne | .lt | .gt
  | .le | .ge | .not | .pop | .dup | .return => true
  | _ => false

/-- The scan of `supports_program` from the entry of `main` to its first `Return`. -/
def supportsCode : List Instruction → Bool
  | [] => false
  | instr :: instrs =>
    supportsOpcode instr.opcode && (instr.opcode = .return || supportsCode instrs)

def supportsProgram (program : CompiledProgram) (mainEntryPc : Nat) : Bool :=
  program.functions.entries.length = 1 && mainEntryPc < program.instructions.length &&
    supportsCode (program.instructions.drop mainEntryPc)

def emitPrologue : List Byte := push .rbp ++ MachineCode.mov .rbp .rsp ++ subImm .rsp 8192

def emitEpilogue : List Byte := MachineCode.mov .rsp .rbp ++ pop .rbp ++ MachineCode.ret

/-- The shape of the arithmetic operations, normalised to 32 bits. -/
def arithmetic (op : Reg → Reg → List Byte) : List Byte :=
  -- right operand, then left operand
  pop .rcx ++ pop .rax ++ op .rax .rcx ++ movsxd32 .rax .rax ++ push .rax

/-- The shape of the comparisons. -/
def comparison (set : Reg → List Byte) : List Byte :=
  pop .rcx ++ pop .rax ++ MachineCode.cmp .rax .rcx ++ set .rax ++ movzx .rax .rax ++ push .rax

/-- Where a local lives: `[rbp + offset]`. -/
def localOffset (arg1 : Int32) : Int32 := -(8 + arg1 * 8)

/-- `compile_instruction` on the opcodes that `supports_opcode` accepts. -/
def compileInstruction (instr : Instruction) : List Byte :=
  match instr.opcode with
  | .loadConst => movImm32 .rax instr.arg1 ++ push .rax
  | .loadLocal => movLoad .rax .rbp (localOffset instr.arg1) ++ push .rax
  | .storeLocal => pop .rax ++ movStore .rbp (localOffset instr.arg1) .rax
  | .add => arithmetic MachineCode.add
  | .sub => arithmetic MachineCode.sub
  | .mul => arithmetic imul
  | .neg => pop .rax ++ MachineCode.neg .rax ++ push .rax
  | .eq => comparison sete
  | .ne => comparison setne
  | .lt => comparison setl
  | .gt => comparison setg
  | .le => comparison setle
  | .ge => comparison setge
  | .not => pop .rax ++ MachineCode.test .rax .rax ++ sete .rax ++ movzx .rax .rax ++ push .rax
  | .return => pop .rax ++ emitEpilogue
  | .pop => pop .rax
  | .dup => pop .rax ++ push .rax ++ push .rax
  | _ => []

/-- The instructions of `main`, up to its first `Return`. -/
def compileCode : List Instruction → List Byte
  | [] => []
  | instr :: instrs =>
    compileInstruction instr ++ if instr.opcode = .return then [] else compileCode instrs

/-- Compile bytecode to native code. -/
def compile (program : CompiledProgram) : Option (List Byte) :=
  let mainEntryPc :=
    ((program.functions.lookup program.mainFuncId).map FunctionInfo.entryPc).getD 0
  if supportsProgram program mainEntryPc then
    some (emitPrologue ++ compileCode (program.instructions.drop mainEntryPc))
  else none

end JitCompiler

end MiniLang
