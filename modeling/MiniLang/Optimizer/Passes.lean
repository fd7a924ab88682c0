import MiniLang.Lib.Peephole
import MiniLang.Machine.Vm
import MiniLang.Optimizer.DeadCode

/-!
# The optimizer

Four passes, each over the code that the last one left. The first three replace short patterns of
instructions. They change the positions of instructions and do not correct jumps, so they run only on
a single function without jumps. The last one is dead code elimination.

A pattern is matched at the front of the remaining code; the rule of a pass gives the instructions that
replace it and how many of them it takes.
-/

namespace MiniLang

namespace Optimizer

/-! ## Constant folding -/

/-- The value of `a op b`, where the pass evaluates it. -/
def folded (opcode : Opcode) (a b : Int) : Option Int :=
  match opcode with
  | .add => some (normalizeI32 (wrapI64 (a + b)))
  | .sub => some (normalizeI32 (wrapI64 (a - b)))
  | .mul => some (normalizeI32 (wrapI64 (a * b)))
  | .div => if b ≠ 0 ∧ ¬(a = -2 ^ 31 ∧ b = -1) then some (a.tdiv b) else none
  | .eq => some (if a = b then 1 else 0)
  | .ne => some (if a ≠ b then 1 else 0)
  | .lt => some (if a < b then 1 else 0)
  | .gt => some (if a > b then 1 else 0)
  | .le => some (if a ≤ b then 1 else 0)
  | .ge => some (if a ≥ b then 1 else 0)
  | _ => none

/-- LOAD_CONST a, LOAD_CONST b, op. -/
def foldBinary : List Instruction → Option (List Instruction × Nat)
  | i0 :: i1 :: i2 :: _ =>
    if i0.opcode = .loadConst ∧ i1.opcode = .loadConst then
      (folded i2.opcode i0.arg1.toInt i1.arg1.toInt).map fun value ↦
        ([⟨.loadConst, Int32.ofInt value, 0⟩], 3)
    else none
  | _ => none

def foldUnary : List Instruction → Option (List Instruction × Nat)
  | i0 :: i1 :: _ =>
    if i0.opcode = .loadConst ∧ i1.opcode = .neg then
      some ([⟨.loadConst, Int32.ofInt (normalizeI32 (-i0.arg1.toInt)), 0⟩], 2)
    else if i0.opcode = .loadConst ∧ i1.opcode = .not then
      some ([⟨.loadConst, if i0.arg1 = 0 then 1 else 0, 0⟩], 2)
    else none
  | _ => none

def foldRule (_ : Nat) (code : List Instruction) : Option (List Instruction × Nat) :=
  (foldBinary code).or (foldUnary code)

/-- Constant folding: evaluate constant expressions at compile time. -/
def constantFolding (stats : OptimizationStats) (instructions : List Instruction) :
    List Instruction × OptimizationStats :=
  let (result, count) := Peephole.scan foldRule 0 0 instructions
  (result, { stats with constantsFolded := stats.constantsFolded + count })

/-! ## Strength reduction -/

def reduceRule (_ : Nat) : List Instruction → Option (List Instruction × Nat)
  | i0 :: i1 :: _ =>
    -- multiply by 0: pop, push 0
    if i0.opcode = .loadConst ∧ i0.arg1 = 0 ∧ i1.opcode = .mul then
      some ([⟨.pop, 0, 0⟩, ⟨.loadConst, 0, 0⟩], 2)
    -- multiply by 1, add 0, subtract 0, divide by 1: the value is already on the stack
    else if i0.opcode = .loadConst ∧ i0.arg1 = 1 ∧ i1.opcode = .mul then some ([], 2)
    else if i0.opcode = .loadConst ∧ i0.arg1 = 0 ∧ i1.opcode = .add then some ([], 2)
    else if i0.opcode = .loadConst ∧ i0.arg1 = 0 ∧ i1.opcode = .sub then some ([], 2)
    else if i0.opcode = .loadConst ∧ i0.arg1 = 1 ∧ i1.opcode = .div then some ([], 2)
    else none
  | _ => none

/-- Strength reduction: replace expensive operations with cheaper ones. -/
def strengthReduction (stats : OptimizationStats) (instructions : List Instruction) :
    List Instruction × OptimizationStats :=
  let (result, count) := Peephole.scan reduceRule 0 0 instructions
  (result, { stats with strengthReductions := stats.strengthReductions + count })

/-! ## Peephole optimization -/

def peepholeRule (i : Nat) : List Instruction → Option (List Instruction × Nat)
  | i0 :: i1 :: _ =>
    -- dead load
    if i0.opcode = .loadConst ∧ i1.opcode = .pop then some ([], 2)
    -- jump to the next instruction
    else if i0.opcode = .jump ∧ i0.arg1 = Compiler.asI32 (i + 1) then some ([], 1)
    else none
  | _ => none

/-- Peephole optimization: local pattern matching. -/
def peepholeOptimization (stats : OptimizationStats) (instructions : List Instruction) :
    List Instruction × OptimizationStats :=
  let (result, count) := Peephole.scan peepholeRule 0 0 instructions
  (result, { stats with peepholeOptimizations := stats.peepholeOptimizations + count })

/-! ## All passes -/

def canRunSizeChangingPasses (instructions : List Instruction)
    (functions : HashMap Nat FunctionInfo) : Bool :=
  functions.entries.length = 1 ∧
    ∀ instr ∈ instructions, instr.opcode ∉ [.jump, .jumpIfFalse, .jumpIfTrue]

/-- The passes that replace patterns. -/
def sizeChangingPasses (stats : OptimizationStats) (instructions : List Instruction) :
    List Instruction × OptimizationStats :=
  let (instructions, stats) := constantFolding stats instructions
  let (instructions, stats) := strengthReduction stats instructions
  peepholeOptimization stats instructions

/-- Run all optimization passes. -/
def optimize (stats : OptimizationStats) (program : CompiledProgram) :
    CompiledProgram × OptimizationStats :=
  let stats := { stats with instructionsBefore := program.instructions.length }
  let (instructions, stats) :=
    if canRunSizeChangingPasses program.instructions program.functions then
      sizeChangingPasses stats program.instructions
    else (program.instructions, stats)
  let (code, stats) := deadCodeElimination stats instructions program.functions
  (withCode program code, { stats with instructionsAfter := code.1.length })

example : (constantFolding {} [⟨.loadConst, 2, 0⟩, ⟨.loadConst, 2, 0⟩, ⟨.add, 0, 0⟩,
    ⟨.loadConst, 3, 0⟩, ⟨.add, 0, 0⟩]).1 =
    [⟨.loadConst, 4, 0⟩, ⟨.loadConst, 3, 0⟩, ⟨.add, 0, 0⟩] := by decide +kernel

end Optimizer

end MiniLang
