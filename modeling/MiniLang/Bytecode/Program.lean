import Mathlib.Data.BitVec
import Mathlib.Data.List.AList

/-!
# Bytecode programs

Opcodes, instructions and the metadata of a compiled program, with the limits and trap codes the
compiler, the verifier and the machines share. A `HashMap` of the source is an association list
with distinct keys; the order of its entries stands for the unspecified iteration order.
-/

namespace MiniLang

/-! ## Limits -/

def maxGlobalSlots : Nat := 256
def maxLocalSlots : Nat := 1024
def maxFrames : Nat := 100
def maxOperandStack : Nat := 1000
def maxCycles : Nat := 100000
def maxInstructions : Nat := 10000
def gcThreshold : Nat := 8

/-- `usize::MAX`. -/
def usizeMax : Nat := 2 ^ 64 - 1

/-- `usize::checked_add`. -/
def checkedAdd (a b : Nat) : Option Nat := if a + b ≤ usizeMax then some (a + b) else none

/-- `arg as usize` for an `i32`: negative values wrap around to the top of the range. -/
def asUsize (arg : Int32) : Nat := (arg.toInt % 2 ^ 64).toNat

/-! ## Traps -/

/-- Trap codes for runtime errors. -/
inductive TrapCode
  | none
  | divideByZero
  | undefinedLocal
  | arrayOutOfBounds
  | stackOverflow
  | cycleLimit
  | undefinedFunction
  | stackUnderflow
  | invalidInstruction
deriving DecidableEq

/-- The variant name, as the derived `Debug` prints it. -/
def TrapCode.debug : TrapCode → String
  | .none => "None"
  | .divideByZero => "DivideByZero"
  | .undefinedLocal => "UndefinedLocal"
  | .arrayOutOfBounds => "ArrayOutOfBounds"
  | .stackOverflow => "StackOverflow"
  | .cycleLimit => "CycleLimit"
  | .undefinedFunction => "UndefinedFunction"
  | .stackUnderflow => "StackUnderflow"
  | .invalidInstruction => "InvalidInstruction"

/-! ## Instructions -/

/-- Bytecode opcodes. -/
inductive Opcode
  | loadConst | loadLocal | storeLocal | loadGlobal | storeGlobal
  -- Arithmetic
  | add | sub | mul | div | neg
  -- Comparison
  | eq | ne | lt | gt | le | ge
  -- Logical
  | and | or | not
  -- Control flow
  | jump | jumpIfFalse | jumpIfTrue
  -- Functions
  | call | return
  -- Arrays
  | arrayLoad | arrayStore | arrayNew | localArrayLoad | localArrayStore | allocArray
  -- Misc
  | print | pop | dup | halt
deriving DecidableEq

/-- The variant name, as the derived `Debug` prints it. -/
def Opcode.debug : Opcode → String
  | .loadConst => "LoadConst"
  | .loadLocal => "LoadLocal"
  | .storeLocal => "StoreLocal"
  | .loadGlobal => "LoadGlobal"
  | .storeGlobal => "StoreGlobal"
  | .add => "Add"
  | .sub => "Sub"
  | .mul => "Mul"
  | .div => "Div"
  | .neg => "Neg"
  | .eq => "Eq"
  | .ne => "Ne"
  | .lt => "Lt"
  | .gt => "Gt"
  | .le => "Le"
  | .ge => "Ge"
  | .and => "And"
  | .or => "Or"
  | .not => "Not"
  | .jump => "Jump"
  | .jumpIfFalse => "JumpIfFalse"
  | .jumpIfTrue => "JumpIfTrue"
  | .call => "Call"
  | .return => "Return"
  | .arrayLoad => "ArrayLoad"
  | .arrayStore => "ArrayStore"
  | .arrayNew => "ArrayNew"
  | .localArrayLoad => "LocalArrayLoad"
  | .localArrayStore => "LocalArrayStore"
  | .allocArray => "AllocArray"
  | .print => "Print"
  | .pop => "Pop"
  | .dup => "Dup"
  | .halt => "Halt"

structure Instruction where
  opcode : Opcode
  arg1 : Int32
  arg2 : Int32
deriving DecidableEq

def Instruction.simple (opcode : Opcode) : Instruction := ⟨opcode, 0, 0⟩

/-! ## Metadata -/

/-- Function metadata. -/
structure FunctionInfo where
  name : String
  id : Nat
  entryPc : Nat
  paramCount : Nat
  localCount : Nat
deriving DecidableEq

/-- Global variable metadata. -/
structure GlobalInfo where
  name : String
  slot : Nat
  isArray : Bool
  arraySize : Nat
deriving DecidableEq

abbrev HashMap (α β : Type) := AList fun _ : α ↦ β

/-- `map.values()`. -/
def HashMap.values {α β : Type} (m : HashMap α β) : List β := m.entries.map Sigma.snd

structure CompiledProgram where
  instructions : List Instruction
  functions : HashMap Nat FunctionInfo
  globals : HashMap String GlobalInfo
  mainFuncId : Nat
  constants : List Int32

end MiniLang
