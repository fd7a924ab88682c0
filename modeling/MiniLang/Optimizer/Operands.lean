import MiniLang.Machine.ValueRules
import MiniLang.Optimizer.Passes

/-!
# Instructions on operands

The instructions that the patterns of the optimizer are made of take operands from the current frame
and put one back. What such an instruction does depends on the operands of the frame alone, and on
how many more there is room for.

A block of them may be replaced by another one if that leaves the same operands, wherever the first
one leaves any. Where the operands overflow the replacement is free: it needs less room. So are the
operands that a block of verified code never lacks.

## Two readings

`operands` reads an instruction as a function on the list of operands, with a trap code where it
fails; `blockOperands` is a block of them. The other reading is the machine, in which each
instruction also costs a cycle and the block may end at the limit between two of them. `run_block`
and `run_block_ends` connect the two: with enough cycles left the machine has the operands that
`blockOperands` says, and else the run ends at the cycle limit or with the trap that it says.

So whether two blocks are interchangeable is decided on lists, where a pattern with concrete opcodes
and arbitrary operands is evaluated by unfolding.
-/

namespace MiniLang

open EStateM

/-! ## What the instructions do -/

namespace Optimizer

/-- Put a value on the operands of a frame that has room for `room` of them. -/
def pushed (room : Nat) (value : Int32) (stack : List Int32) : Except TrapCode (List Int32) :=
  if stack.length < room then .ok (value :: stack) else .error .stackOverflow

/-- An operator that does not trap. -/
def operator : Opcode → Option (Int32 → Int32 → Int32)
  | .add => some (· + ·)
  | .sub => some (· - ·)
  | .mul => some (· * ·)
  | .eq => some fun a b ↦ ValueVm.flag (a = b)
  | .ne => some fun a b ↦ ValueVm.flag (a ≠ b)
  | .lt => some fun a b ↦ ValueVm.flag (a < b)
  | .gt => some fun a b ↦ ValueVm.flag (a > b)
  | .le => some fun a b ↦ ValueVm.flag (a ≤ b)
  | .ge => some fun a b ↦ ValueVm.flag (a ≥ b)
  | _ => none

def unaryOperands (room : Nat) (f : Int32 → Int32) : List Int32 → Except TrapCode (List Int32)
  | a :: stack => pushed room (f a) stack
  | [] => .error .stackUnderflow

def binaryOperands (room : Nat) (f : Int32 → Int32 → Int32) :
    List Int32 → Except TrapCode (List Int32)
  | b :: a :: stack => pushed room (f a b) stack
  | _ => .error .stackUnderflow

def quotientOperands (room : Nat) : List Int32 → Except TrapCode (List Int32)
  | b :: a :: stack => if b = 0 then .error .divideByZero else pushed room (a / b) stack
  | _ => .error .stackUnderflow

def poppedOperands : List Int32 → Except TrapCode (List Int32)
  | _ :: stack => .ok stack
  | [] => .error .stackUnderflow

/-- The operands of the frame after an instruction, top first, or the trap. -/
def operands (room : Nat) (instr : Instruction) (stack : List Int32) :
    Except TrapCode (List Int32) :=
  match instr.opcode with
  | .loadConst => pushed room instr.arg1 stack
  | .pop => poppedOperands stack
  | .neg => unaryOperands room (- ·) stack
  | .not => unaryOperands room (fun a ↦ ValueVm.flag (a = 0)) stack
  | .div => quotientOperands room stack
  | opcode => ((operator opcode).map fun f ↦ binaryOperands room f stack).getD
      (.error .stackUnderflow)

/-- The operands after a block of instructions. -/
def blockOperands (room : Nat) : List Instruction → List Int32 → Except TrapCode (List Int32)
  | [], stack => .ok stack
  | instr :: block, stack => (operands room instr stack).bind (blockOperands room block)

/-- The instruction does nothing but to the operands. -/
def OnOperands (instr : Instruction) : Prop :=
  instr.opcode ∈ [.loadConst, .pop, .neg, .not, .div] ∨ (operator instr.opcode).isSome

end Optimizer

/-! ## The machine -/

namespace ValueVm

open Optimizer

variable {program : CompiledProgram} {storage : Option Nat} {vm : ValueVm} {frame : ValueFrame}
  {frames : List ValueFrame} {value : Int32} {stack : List Int32}

/-- The machine with other operands in its current frame. -/
def holding (vm : ValueVm) (frame : ValueFrame) (frames : List ValueFrame) (stack : List Int32) :
    ValueVm :=
  { vm with frames := { frame with operands := stack } :: frames }

/-- The number of operands the current frame has room for. -/
def roomOver (frames : List ValueFrame) : Nat := maxOperandStack - (allInts frames).length

/-- What an execution from `vm` says of the operands of its current frame. The machine gives up where
operands are missing. -/
def Gives (vm : ValueVm) (frame : ValueFrame) (frames : List ValueFrame)
    (result : Result Stop ValueVm Flow) : Except TrapCode (List Int32) → Prop
  | .ok stack => result = .ok .next (vm.holding frame frames stack)
  | .error code => ∃ stop vm', result = .error stop vm' ∧
      (stop = .panic ∨ code ≠ .stackUnderflow ∧ ∃ message, stop = .trap code message)

theorem run_pop_holding (hfresh : vm.fresh = none) :
    pop.run (vm.holding frame frames (value :: stack)) =
      .ok value (vm.holding frame frames stack) := by
  rcases pop_cases (vm.holding frame frames (value :: stack)) with
    ⟨vm', hrun⟩ | ⟨frame', frames', value', stack', -, hframes, hstack, hrun⟩
  · rw [pop, run_bind, run_get] at hrun
    dsimp only at hrun
    rw [run_bind, run_require (show (vm.holding frame frames (value :: stack)).fresh = none from
      hfresh)] at hrun
    cases hrun
  · obtain ⟨rfl, rfl⟩ := List.cons.inj hframes
    obtain ⟨rfl, rfl⟩ := List.cons.inj hstack
    exact hrun

theorem run_pop_empty : GivesUp pop (vm.holding frame frames []) := by
  rcases pop_cases (vm.holding frame frames []) with hrun | ⟨_, _, _, _, -, hframes, hstack, -⟩
  · exact hrun
  · obtain ⟨rfl, -⟩ := List.cons.inj hframes
    cases hstack

theorem operandCount_holding (hfresh : vm.fresh = none) :
    (vm.holding frame frames stack).operandCount = stack.length + (allInts frames).length := by
  have hnone : (vm.holding frame frames stack).fresh = none := hfresh
  rw [operandCount, hnone, ints_eq]
  exact List.length_append

theorem gives_push (hfresh : vm.fresh = none) (value : Int32) (stack : List Int32) :
    Gives vm frame frames ((do
      push value
      return Flow.next : ValueVmM Flow).run (vm.holding frame frames stack))
      (pushed (roomOver frames) value stack) := by
  have hcount := @operandCount_holding vm frame frames stack hfresh
  rw [pushed, roomOver, run_bind]
  rcases push_cases value (vm.holding frame frames stack) with
    ⟨vm', hrun⟩ | ⟨-, ⟨hfull, hrun⟩ | ⟨hroom, frame', frames', hframes, hrun⟩⟩
  · by_cases hlt : stack.length < maxOperandStack - (allInts frames).length
    · rw [push, run_bind, run_get] at hrun
      dsimp only at hrun
      rw [run_bind, run_require (show (vm.holding frame frames stack).fresh = none from hfresh)]
        at hrun
      dsimp only at hrun
      rw [run_bind, run_get] at hrun
      dsimp only at hrun
      rw [if_neg (by omega)] at hrun
      cases hrun
    · rw [if_neg hlt]
      exact ⟨_, _, by rw [hrun], .inl rfl⟩
  · rw [if_neg (by omega)]
    exact ⟨_, _, by rw [hrun], .inr ⟨TrapCode.noConfusion, _, rfl⟩⟩
  · rw [if_pos (by omega), hrun]
    obtain ⟨rfl, rfl⟩ := List.cons.inj hframes
    rfl

/-- An operand is missing. -/
theorem gives_underflow {α : Type} {x : ValueVmM α} {f : α → ValueVmM Flow} {vm₁ : ValueVm}
    (h : GivesUp x vm₁) :
    Gives vm frame frames ((x >>= f).run vm₁) (.error .stackUnderflow) := by
  obtain ⟨vm', hrun⟩ := h
  exact ⟨_, vm', by rw [run_bind, hrun], .inl rfl⟩

theorem gives_pop (hfresh : vm.fresh = none) {f : Int32 → ValueVmM Flow}
    {e : Except TrapCode (List Int32)}
    (h : Gives vm frame frames ((f value).run (vm.holding frame frames stack)) e) :
    Gives vm frame frames ((pop >>= f).run (vm.holding frame frames (value :: stack))) e := by
  rw [run_bind, run_pop_holding hfresh]
  exact h

theorem gives_binary (hfresh : vm.fresh = none) (f : Int32 → Int32 → Int32) (stack : List Int32) :
    Gives vm frame frames ((binary f).run (vm.holding frame frames stack))
      (binaryOperands (roomOver frames) f stack) := by
  rcases stack with _ | ⟨b, _ | ⟨a, stack⟩⟩
  · exact gives_underflow run_pop_empty
  · exact gives_pop hfresh (gives_underflow run_pop_empty)
  · exact gives_pop hfresh (gives_pop hfresh (gives_push hfresh (f a b) stack))

theorem gives_unary (hfresh : vm.fresh = none) (f : Int32 → Int32) (stack : List Int32) :
    Gives vm frame frames ((unary f).run (vm.holding frame frames stack))
      (unaryOperands (roomOver frames) f stack) := by
  rcases stack with _ | ⟨a, stack⟩
  · exact gives_underflow run_pop_empty
  · exact gives_pop hfresh (gives_push hfresh (f a) stack)

theorem executeInstruction_operator {opcode : Opcode} {f : Int32 → Int32 → Int32}
    (h : operator opcode = some f) (arg1 arg2 : Int32) :
    executeInstruction program storage opcode arg1 arg2 = binary f := by
  cases opcode with
  | add | sub | mul | eq | ne | lt | gt | le | ge =>
    obtain rfl := Option.some_inj.mp h
    rfl
  | _ => cases h

/-- **What an instruction does to the operands.** -/
theorem gives_executeInstruction (hfresh : vm.fresh = none) {instr : Instruction}
    (h : OnOperands instr) (stack : List Int32) :
    Gives vm frame frames
      ((executeInstruction program storage instr.opcode instr.arg1 instr.arg2).run
        (vm.holding frame frames stack))
      (operands (roomOver frames) instr stack) := by
  obtain ⟨opcode, arg1, arg2⟩ := instr
  cases hop : operator opcode with
  | some f =>
    have hoperands : operands (roomOver frames) ⟨opcode, arg1, arg2⟩ stack =
        binaryOperands (roomOver frames) f stack := by
      cases opcode with
      | add | sub | mul | eq | ne | lt | gt | le | ge =>
        obtain rfl := Option.some_inj.mp hop
        rfl
      | _ => cases hop
    rw [hoperands, executeInstruction_operator hop]
    exact gives_binary hfresh f stack
  | none =>
    rcases h with h | h
    · simp only [List.mem_cons, List.not_mem_nil, or_false] at h
      rcases h with rfl | rfl | rfl | rfl | rfl
      · exact gives_push hfresh arg1 stack
      · rcases stack with _ | ⟨a, stack⟩
        · exact gives_underflow run_pop_empty
        · exact gives_pop hfresh rfl
      · exact gives_unary hfresh (- ·) stack
      · exact gives_unary hfresh (fun a ↦ flag (a = 0)) stack
      · rcases stack with _ | ⟨b, _ | ⟨a, stack⟩⟩
        · exact gives_underflow run_pop_empty
        · exact gives_pop hfresh (gives_underflow run_pop_empty)
        · refine gives_pop hfresh (gives_pop hfresh ?_)
          simp only [operands, quotientOperands]
          split
          · exact ⟨_, _, rfl, .inr ⟨TrapCode.noConfusion, _, rfl⟩⟩
          · exact gives_push hfresh (a / b) stack
    · rw [hop] at h
      cases h

/-! ## Blocks -/

/-- The cycle limit leaves `k` more instructions. -/
def InBudget (vm : ValueVm) (k : Nat) : Prop := vm.maxCycles = 0 ∨ vm.cycles + k ≤ vm.maxCycles

/-- The machine after `k` instructions on operands. -/
def after (vm : ValueVm) (frame : ValueFrame) (frames : List ValueFrame) (k : Nat)
    (stack : List Int32) : ValueVm :=
  { vm.holding frame frames stack with pc := vm.pc + k, cycles := vm.cycles + k }

/-- The run ends, at the cycle limit or with the trap that `e` says. -/
def EndsAs (e : Except TrapCode (List Int32)) (halt : VmHalt) : Prop :=
  halt = .panic ∨ ∃ result, halt = .result result ∧
    (result.trapCode = .cycleLimit ∨ e = .error result.trapCode ∧ result.trapCode ≠ .stackUnderflow)

theorem step_of_inBudget {instr : Instruction} (hinstr : program.instructions[vm.pc]? = some instr)
    (hbudget : vm.InBudget 1) : step program storage vm = afterInstruction
      ((executeInstruction program storage instr.opcode instr.arg1 instr.arg2).run
        { vm with cycles := vm.cycles + 1 }) := by
  rw [step, if_neg, hinstr]
  rintro ⟨hpos, hle⟩
  rcases hbudget with hzero | hbudget
  · exact absurd hzero hpos.ne'
  · exact absurd hbudget (Nat.not_le.mpr (Nat.lt_succ_of_le hle))

theorem step_of_not_inBudget (hbudget : ¬vm.InBudget 1) : ∃ halt,
    step program storage vm = .inr halt ∧ ∀ e, EndsAs e halt := by
  rw [InBudget, not_or, Nat.not_le] at hbudget
  refine ⟨_, if_pos ⟨Nat.pos_of_ne_zero hbudget.1, Nat.le_of_lt_succ hbudget.2⟩, fun e ↦ ?_⟩
  exact .inr ⟨_, rfl, .inl rfl⟩

/-- One instruction on operands. -/
theorem step_onOperands (hfresh : vm.fresh = none) (hframes : vm.frames = frame :: frames)
    {instr : Instruction} (hinstr : program.instructions[vm.pc]? = some instr)
    (h : OnOperands instr) (hbudget : vm.InBudget 1) :
    (∀ stack, operands (roomOver frames) instr frame.operands = .ok stack →
      step program storage vm = .inl (vm.after frame frames 1 stack)) ∧
    ∀ code, operands (roomOver frames) instr frame.operands = .error code →
      ∃ halt, step program storage vm = .inr halt ∧ EndsAs (.error code) halt := by
  have hself : ({ vm with cycles := vm.cycles + 1 } : ValueVm) =
      ({ vm with cycles := vm.cycles + 1 } : ValueVm).holding frame frames frame.operands := by
    rw [holding, ← hframes]
  have hgives := @gives_executeInstruction program storage { vm with cycles := vm.cycles + 1 } frame
    frames hfresh instr h frame.operands
  rw [← hself] at hgives
  rw [step_of_inBudget hinstr hbudget]
  constructor
  · intro stack hstack
    rw [hstack] at hgives
    exact congrArg afterInstruction hgives
  · intro code hcode
    rw [hcode] at hgives
    obtain ⟨stop, vm', hrun, rfl | ⟨hne, message, rfl⟩⟩ := hgives
    · exact ⟨_, congrArg afterInstruction hrun, .inl rfl⟩
    · exact ⟨_, congrArg afterInstruction hrun, .inr ⟨_, rfl, .inr ⟨rfl, hne⟩⟩⟩

/-- **A block that leaves operands** runs to its end, if the cycle limit lets it. -/
theorem run_block {block : List Instruction} {stack : List Int32} (hfresh : vm.fresh = none)
    (hframes : vm.frames = frame :: frames) (hblock : block <+: program.instructions.drop vm.pc)
    (h : ∀ instr ∈ block, OnOperands instr) (hbudget : vm.InBudget block.length)
    (hstack : blockOperands (roomOver frames) block frame.operands = .ok stack) (n : Nat) :
    Stepping.run (step program storage) (n + block.length) vm =
      Stepping.run (step program storage) n (vm.after frame frames block.length stack) := by
  induction block generalizing vm frame with
  | nil =>
    obtain rfl := Except.ok.inj hstack
    rw [after, holding, ← hframes]
    rfl
  | cons instr block ih =>
    obtain ⟨hinstr, hrest⟩ := Peephole.getElem?_of_prefix hblock
    have hone : vm.InBudget 1 := hbudget.imp_right fun hle ↦ by
      rw [List.length_cons] at hle
      omega
    obtain ⟨hstep, -⟩ := @step_onOperands program storage vm frame frames hfresh hframes instr hinstr
      (h instr List.mem_cons_self) hone
    rw [blockOperands] at hstack
    cases hoperands : operands (roomOver frames) instr frame.operands with
    | error code =>
      rw [hoperands] at hstack
      cases hstack
    | ok stack' =>
      rw [hoperands] at hstack
      have hfresh' : (vm.after frame frames 1 stack').fresh = none := hfresh
      have hframes' : (vm.after frame frames 1 stack').frames =
        { frame with operands := stack' } :: frames := rfl
      have hbudget' : (vm.after frame frames 1 stack').InBudget block.length := by
        rw [List.length_cons] at hbudget
        simpa only [InBudget, after, holding, Nat.add_assoc, Nat.add_comm 1] using hbudget
      rw [List.length_cons, ← Nat.add_assoc, Stepping.run_of_next (hstep stack' hoperands),
        ih hfresh' hframes' hrest (fun i hi ↦ h i (List.mem_cons_of_mem _ hi)) hbudget' hstack]
      simp only [after, holding, Nat.add_assoc, Nat.add_comm 1]

/-- **Any other block** ends the run. -/
theorem run_block_ends {block : List Instruction} (hfresh : vm.fresh = none)
    (hframes : vm.frames = frame :: frames) (hblock : block <+: program.instructions.drop vm.pc)
    (h : ∀ instr ∈ block, OnOperands instr)
    (hends : ∀ stack, blockOperands (roomOver frames) block frame.operands = .ok stack →
      block ≠ [] ∧ ¬vm.InBudget block.length) :
    ∃ k halt, (∀ n, Stepping.run (step program storage) (n + k) vm = some halt) ∧
      EndsAs (blockOperands (roomOver frames) block frame.operands) halt := by
  induction block generalizing vm frame with
  | nil => exact absurd rfl (hends _ rfl).1
  | cons instr block ih =>
    obtain ⟨hinstr, hrest⟩ := Peephole.getElem?_of_prefix hblock
    by_cases hone : vm.InBudget 1
    · obtain ⟨hnext, hend⟩ := @step_onOperands program storage vm frame frames hfresh hframes instr
        hinstr (h instr List.mem_cons_self) hone
      rw [blockOperands] at hends ⊢
      cases hoperands : operands (roomOver frames) instr frame.operands with
      | error code =>
        obtain ⟨halt, hstep, hcode⟩ := hend code hoperands
        exact ⟨1, halt, fun n ↦ Stepping.run_of_end hstep, hcode⟩
      | ok stack' =>
        rw [hoperands] at hends
        have hfresh' : (vm.after frame frames 1 stack').fresh = none := hfresh
        have hframes' : (vm.after frame frames 1 stack').frames =
          { frame with operands := stack' } :: frames := rfl
        -- the budget is exceeded later than here
        have hends' : ∀ stack, blockOperands (roomOver frames) block stack' = .ok stack →
            block ≠ [] ∧ ¬(vm.after frame frames 1 stack').InBudget block.length := by
          intro stack hstack
          obtain ⟨-, hout⟩ := hends stack hstack
          refine ⟨?_, fun hin ↦ hout ?_⟩
          · rintro rfl
            exact hout hone
          · rw [List.length_cons]
            simpa only [InBudget, after, holding, Nat.add_assoc, Nat.add_comm 1] using hin
        obtain ⟨k, halt, hrun, hhalt⟩ := ih hfresh' hframes' hrest
          (fun i hi ↦ h i (List.mem_cons_of_mem _ hi)) hends'
        refine ⟨k + 1, halt, fun n ↦ ?_, hhalt⟩
        rw [← Nat.add_assoc, Stepping.run_of_next (hnext stack' hoperands)]
        exact hrun n
    · obtain ⟨halt, hstep, hhalt⟩ := @step_of_not_inBudget program storage vm hone
      exact ⟨1, halt, fun n ↦ Stepping.run_of_end hstep, hhalt _⟩

end ValueVm

end MiniLang
