import MiniLang.Bytecode.Verifier
import MiniLang.Machine.VmRules

/-!
# Straight-line code

The code that the JIT accepts has no jumps and no calls: what it does is a function of the operands
and the locals of one frame. This function is defined here, apart from any machine, and the
reference machine is shown to compute it: a run of straight-line code goes through the instructions
up to the first `Return` one after the other and stops at the first one that has no effect.

## What it is for

Two machines execute straight-line code, the reference machine and the processor under native code.
Neither is compared with the other. Both are compared with `run`, which is partial: an instruction
without an effect is one on which the reference machine traps, for want of an operand, of room on
the stack or of a value in a local. That native code has no such check is then a matter of
eligibility, which excludes those instructions, and no matter of the simulation.

## The numbers

Operands are 32-bit values, locals are 32-bit values or the marker of an unset local, and the
operands are within their limit: `Fits`, which every instruction with an effect keeps. Among these
values the least one is the only one whose negation has to be normalised.
-/

namespace MiniLang

open Verifier

/-- The operands, top first, and the locals of a frame. -/
structure Scalars where
  stack : List Int
  locals : List Int
deriving DecidableEq

namespace Scalars

/-- Before the first instruction. -/
def start : Scalars := ⟨[], List.replicate maxLocalSlots i64Min⟩

/-! ## Instructions -/

def push (s : Scalars) (value : Int) : Option Scalars :=
  if s.stack.length < maxOperandStack then some { s with stack := value :: s.stack } else none

/-- Replace the top. -/
def unary (s : Scalars) (f : Int → Int) : Option Scalars :=
  match s.stack with
  | a :: stack => some { s with stack := f a :: stack }
  | _ => none

/-- Replace the two topmost operands. -/
def binary (s : Scalars) (f : Int → Int → Int) : Option Scalars :=
  match s.stack with
  | b :: a :: stack => some { s with stack := f a b :: stack }
  | _ => none

/-- The slot a local instruction names, in a function with `localCount` locals. -/
def slot? (localCount : Nat) (arg : Int32) : Option Nat :=
  if 0 ≤ arg ∧ asUsize arg < localCount then some (asUsize arg) else none

/-- The effect of one instruction other than `Return`; `none` where it has none. -/
def exec (localCount : Nat) (s : Scalars) (instr : Instruction) : Option Scalars :=
  match instr.opcode with
  | .loadConst => s.push instr.arg1.toInt
  | .loadLocal =>
    match (slot? localCount instr.arg1).bind (s.locals[·]?) with
    | some value => if value = i64Min then none else s.push value
    | none => none
  | .storeLocal =>
    match s.stack, slot? localCount instr.arg1 with
    | value :: stack, some slot => some ⟨stack, s.locals.set slot value⟩
    | _, _ => none
  | .add => s.binary fun a b ↦ normalizeI32 (wrapI64 (a + b))
  | .sub => s.binary fun a b ↦ normalizeI32 (wrapI64 (a - b))
  | .mul => s.binary fun a b ↦ normalizeI32 (wrapI64 (a * b))
  | .neg => s.unary fun a ↦ normalizeI32 (-a)
  | .eq => s.binary fun a b ↦ flag (a = b)
  | .ne => s.binary fun a b ↦ flag (a ≠ b)
  | .lt => s.binary fun a b ↦ flag (a < b)
  | .gt => s.binary fun a b ↦ flag (a > b)
  | .le => s.binary fun a b ↦ flag (a ≤ b)
  | .ge => s.binary fun a b ↦ flag (a ≥ b)
  | .not => s.unary fun a ↦ flag (a = 0)
  | .pop =>
    match s.stack with
    | _ :: stack => some { s with stack := stack }
    | [] => none
  | .dup =>
    match s.stack with
    | value :: _ => s.push value
    | [] => none
  | _ => none

/-- The effect of a piece of code. -/
def run (localCount : Nat) (code : List Instruction) (s : Scalars) : Option Scalars :=
  code.foldlM (exec localCount) s

/-! ## What every instruction keeps -/

/-- The operands are within their limit, and all numbers are 32-bit values but for the marker in the
unset locals. -/
structure Fits (s : Scalars) : Prop where
  stack_le : s.stack.length ≤ maxOperandStack
  stack : ∀ value ∈ s.stack, IsI32 value
  length : s.locals.length = maxLocalSlots
  locals : ∀ value ∈ s.locals, value ≠ i64Min → IsI32 value

variable {localCount : Nat} {s s' : Scalars} {instr : Instruction}

theorem fits_start : start.Fits where
  stack_le := Nat.zero_le _
  stack _ h := absurd h List.not_mem_nil
  length := List.length_replicate
  locals _ h hvalue := absurd (List.eq_of_mem_replicate h) hvalue

namespace Fits

variable {value : Int} {stack : List Int}

theorem tail (h : s.Fits) (hstack : s.stack = value :: stack) :
    IsI32 value ∧ stack.length < maxOperandStack ∧ Fits { s with stack := stack } := by
  have hle := h.stack_le
  have hvalues := h.stack
  rw [hstack] at hle hvalues
  obtain ⟨hvalue, hrest⟩ := List.forall_mem_cons.mp hvalues
  exact ⟨hvalue, hle, { h with stack_le := Nat.le_of_succ_le hle, stack := hrest }⟩

theorem cons (h : s.Fits) (hvalue : IsI32 value) (hroom : s.stack.length < maxOperandStack) :
    Fits { s with stack := value :: s.stack } :=
  { h with
    stack_le := hroom
    stack := List.forall_mem_cons.mpr ⟨hvalue, h.stack⟩ }

theorem setLocal (h : s.Fits) (slot : Nat) (hvalue : IsI32 value) :
    Fits { s with locals := s.locals.set slot value } :=
  { h with
    length := List.length_set.trans h.length
    locals := fun v hv hset ↦ by
      rcases List.mem_or_eq_of_mem_set hv with hv | rfl
      · exact h.locals v hv hset
      · exact hvalue }

theorem push (h : s.Fits) (hvalue : IsI32 value) (hpush : s.push value = some s') : s'.Fits := by
  rw [Scalars.push] at hpush
  split at hpush
  · next hroom => exact Option.some_inj.mp hpush ▸ h.cons hvalue hroom
  · cases hpush

theorem unary {f : Int → Int} (h : s.Fits) (hf : ∀ a, IsI32 (f a)) (hexec : s.unary f = some s') :
    s'.Fits := by
  rw [Scalars.unary] at hexec
  split at hexec
  · next a stack hstack =>
    obtain ⟨-, hroom, hrest⟩ := h.tail hstack
    exact Option.some_inj.mp hexec ▸ hrest.cons (hf a) hroom
  · cases hexec

theorem binary {f : Int → Int → Int} (h : s.Fits) (hf : ∀ a b, IsI32 (f a b))
    (hexec : s.binary f = some s') : s'.Fits := by
  rw [Scalars.binary] at hexec
  split at hexec
  · next b a stack hstack =>
    obtain ⟨-, -, hrest⟩ := h.tail hstack
    obtain ⟨-, hroom, hrest⟩ := hrest.tail rfl
    exact Option.some_inj.mp hexec ▸ hrest.cons (hf a b) hroom
  · cases hexec

/-- **The step lemma.** -/
theorem exec (h : s.Fits) (hexec : s.exec localCount instr = some s') : s'.Fits := by
  obtain ⟨opcode, arg1, arg2⟩ := instr
  cases opcode with
  | loadConst => exact h.push (isI32_toInt arg1) hexec
  | loadLocal =>
    rw [Scalars.exec] at hexec
    dsimp only at hexec
    split at hexec
    · next value hvalue =>
      split at hexec
      · cases hexec
      · next hset =>
        obtain ⟨slot, -, hget⟩ := Option.bind_eq_some_iff.mp hvalue
        exact h.push (h.locals value (List.mem_of_getElem? hget) hset) hexec
    · cases hexec
  | storeLocal =>
    rw [Scalars.exec] at hexec
    dsimp only at hexec
    split at hexec
    · next value stack slot hstack hslot =>
      obtain ⟨hvalue, -, hrest⟩ := h.tail hstack
      exact Option.some_inj.mp hexec ▸ hrest.setLocal slot hvalue
    · cases hexec
  | add | sub | mul => exact h.binary (fun _ _ ↦ isI32_normalizeI32 _) hexec
  | neg => exact h.unary (fun _ ↦ isI32_normalizeI32 _) hexec
  | eq | ne | lt | gt | le | ge => exact h.binary (fun _ _ ↦ isI32_flag _) hexec
  | not => exact h.unary (fun _ ↦ isI32_flag _) hexec
  | pop =>
    rw [Scalars.exec] at hexec
    dsimp only at hexec
    split at hexec
    · next value stack hstack => exact Option.some_inj.mp hexec ▸ (h.tail hstack).2.2
    · cases hexec
  | dup =>
    rw [Scalars.exec] at hexec
    dsimp only at hexec
    split at hexec
    · next value stack hstack => exact h.push (h.tail hstack).1 hexec
    · cases hexec
  | _ => cases hexec

end Fits

theorem of_slot? {arg : Int32} {slot : Nat} (h : slot? localCount arg = some slot) :
    0 ≤ arg ∧ slot < localCount ∧ asUsize arg = slot := by
  rw [slot?] at h
  split at h
  · next hslot =>
    obtain rfl := Option.some_inj.mp h
    exact ⟨hslot.1, hslot.2, rfl⟩
  · cases h

@[simp] theorem run_nil : s.run localCount [] = some s := rfl

theorem run_cons (instr : Instruction) (code : List Instruction) (s : Scalars) :
    s.run localCount (instr :: code) = (s.exec localCount instr).bind (run localCount code) := rfl

theorem run_concat (code : List Instruction) (instr : Instruction) (s : Scalars) :
    s.run localCount (code ++ [instr]) =
      (s.run localCount code).bind (exec localCount · instr) := by
  simp [run, List.foldlM_append]

/-- **The run lemma.** -/
theorem Fits.run {code : List Instruction} (h : s.Fits) (hrun : s.run localCount code = some s') :
    s'.Fits := by
  induction code generalizing s with
  | nil => exact Option.some_inj.mp hrun ▸ h
  | cons instr code ih =>
    rw [run_cons] at hrun
    obtain ⟨s₁, hexec, hrest⟩ := Option.bind_eq_some_iff.mp hrun
    exact ih (h.exec hexec) hrest

end Scalars

/-! ## The reference machine -/

namespace Vm

/-- The operands and the locals of the machine. -/
def scalars (vm : Vm) : Scalars := ⟨vm.stack, vm.locals⟩

def withScalars (vm : Vm) (s : Scalars) : Vm := { vm with stack := s.stack, locals := s.locals }

variable {program : CompiledProgram} {vm : Vm} {frame : CallFrame} {func : FunctionInfo}

/-- `x` has the effect `result`, or traps where there is none. -/
def Has (x : VmM Bool) (vm : Vm) : Option Scalars → Prop
  | some s => x.run vm = .ok true (vm.withScalars s)
  | none => ∃ code message vm', x.run vm = .error (.trap code message) vm'

theorem has_push (value : Int) (vm : Vm) :
    Has (do push value; return true) vm (vm.scalars.push value) := by
  rw [Scalars.push]
  split
  · next hroom =>
    rw [Has, EStateM.run_bind, run_push hroom]
    rfl
  · next hfull =>
    rw [Has, EStateM.run_bind, run_push_overflow (Nat.le_of_not_lt hfull)]
    exact ⟨_, _, _, rfl⟩

theorem has_trap (code : TrapCode) (message : String) : Has (trap code message) vm none :=
  ⟨code, message, vm, rfl⟩

theorem has_bind {α : Type} {x : VmM α} {f : α → VmM Bool} {a : α} {result : Option Scalars}
    (h : x.run vm = .ok a vm) : Has (x >>= f) vm result = Has (f a) vm result := by
  have hrun : (x >>= f).run vm = (f a).run vm := by rw [EStateM.run_bind, h]
  cases result <;> rw [Has, Has, hrun]

theorem has_pop_nil {f : Int → VmM Bool} (h : vm.stack = []) : Has (pop >>= f) vm none := by
  refine ⟨.stackUnderflow, "Stack underflow", vm, ?_⟩
  simp only [pop, EStateM.run_bind, EStateM.run_get, h]
  rfl

theorem has_pop_cons {f : Int → VmM Bool} {value : Int} {stack : List Int} {result : Option Scalars}
    (hstack : vm.stack = value :: stack) (h : Has (f value) { vm with stack := stack } result) :
    Has (pop >>= f) vm result := by
  cases result with
  | some s => rwa [Has, EStateM.run_bind, run_pop hstack]
  | none =>
    obtain ⟨code, message, vm', h⟩ := h
    exact ⟨code, message, vm', by rwa [EStateM.run_bind, run_pop hstack]⟩

/-- A value put in place of one popped finds room. -/
theorem has_push_some {value : Int} (hroom : vm.stack.length < maxOperandStack) :
    Has (do push value; return true) vm (some ⟨value :: vm.stack, vm.locals⟩) := by
  rw [Has, EStateM.run_bind, run_push hroom]
  rfl

theorem has_unary {f : Int → Int} (hfits : vm.scalars.Fits) :
    Has (do let a ← pop; push (f a); return true) vm (vm.scalars.unary f) := by
  rw [Scalars.unary]
  split
  · next a stack hstack =>
    have hroom := (hfits.tail hstack).2.1
    exact has_pop_cons hstack (@has_push_some { vm with stack := stack } _ hroom)
  · next hshort =>
    cases hstack : vm.stack with
    | nil => exact has_pop_nil hstack
    | cons a stack => exact absurd hstack (hshort a stack)

theorem has_binary {f : Int → Int → Int} (hfits : vm.scalars.Fits) :
    Has (binary f) vm (vm.scalars.binary f) := by
  rw [Scalars.binary]
  split
  · next b a stack hstack =>
    have hroom := ((hfits.tail hstack).2.2.tail rfl).2.1
    refine has_pop_cons hstack (has_pop_cons rfl ?_)
    exact @has_push_some { vm with stack := stack } _ hroom
  · next hshort =>
    cases hstack : vm.stack with
    | nil => exact has_pop_nil hstack
    | cons b stack =>
      refine has_pop_cons hstack ?_
      cases stack with
      | nil => exact has_pop_nil rfl
      | cons a stack => exact absurd hstack (hshort b a stack)

/-- The machine is in the frame of a function with `localCount` locals, the only frame. -/
structure InFrame (program : CompiledProgram) (localCount : Nat) (vm : Vm) : Prop where
  frame : ∃ frame func, vm.callStack = [frame] ∧ frame.basePtr = 0 ∧ frame.returnPc = usizeMax ∧
    program.functions.lookup frame.funcId = some func ∧ func.localCount = localCount
  localCount_le : localCount ≤ maxLocalSlots

theorem InFrame.slot_cases {localCount : Nat} (h : InFrame program localCount vm) (arg : Int32) :
    (∃ slot, Scalars.slot? localCount arg = some slot ∧ slot < localCount ∧
      (currentLocalSlot program arg).run vm = .ok slot vm) ∨
    Scalars.slot? localCount arg = none ∧ ∃ code message,
      (currentLocalSlot program arg).run vm = .error (.trap code message) vm := by
  obtain ⟨frame, func, hstack, hbase, -, hfunc, rfl⟩ := h.frame
  have hle := h.localCount_le
  by_cases hslot : 0 ≤ arg ∧ asUsize arg < func.localCount
  · refine .inl ⟨asUsize arg, by rw [Scalars.slot?, if_pos hslot], hslot.2, ?_⟩
    rw [run_currentLocalSlot hslot.1 hstack hfunc hslot.2 (by omega), hbase, Nat.zero_add]
  · refine .inr ⟨by rw [Scalars.slot?, if_neg hslot], ?_⟩
    rw [currentLocalSlot]
    by_cases hneg : arg < 0
    · rw [if_pos hneg]
      exact ⟨_, _, rfl⟩
    · rw [if_neg hneg]
      have hslot : asUsize arg ≥ func.localCount :=
        Nat.le_of_not_lt fun hlt ↦ hslot ⟨Int32.not_lt.mp hneg, hlt⟩
      simp only [EStateM.run_bind, EStateM.run_get, hstack, hfunc, if_pos hslot]
      exact ⟨_, _, rfl⟩

theorem has_loadLocal {localCount : Nat} (hframe : InFrame program localCount vm)
    (hfits : vm.scalars.Fits) (arg1 arg2 : Int32) :
    Has (executeInstruction program .loadLocal arg1 arg2) vm
      (vm.scalars.exec localCount ⟨.loadLocal, arg1, arg2⟩) := by
  rw [executeInstruction, Scalars.exec]
  dsimp only
  rcases hframe.slot_cases arg1 with ⟨slot, hslot, hlt, hrun⟩ | ⟨hslot, code, message, hrun⟩
  · have hcell : slot < vm.locals.length :=
      Nat.lt_of_lt_of_eq (Nat.lt_of_lt_of_le hlt hframe.localCount_le) hfits.length.symm
    have hget : vm.locals[slot]? = some vm.locals[slot] := List.getElem?_eq_getElem hcell
    rw [hslot, Option.bind_some, show vm.scalars.locals[slot]? = some vm.locals[slot] from hget]
    dsimp only
    rw [has_bind hrun, has_bind (run_readLocal hget)]
    split
    · exact has_trap _ _
    · exact has_push _ vm
  · rw [hslot]
    exact ⟨code, message, vm, by rw [EStateM.run_bind, hrun]⟩

theorem has_storeLocal {localCount : Nat} (hframe : InFrame program localCount vm)
    (hfits : vm.scalars.Fits) (arg1 arg2 : Int32) :
    Has (executeInstruction program .storeLocal arg1 arg2) vm
      (vm.scalars.exec localCount ⟨.storeLocal, arg1, arg2⟩) := by
  rw [executeInstruction, Scalars.exec]
  dsimp only
  cases hstack : vm.stack with
  | nil =>
    rw [show vm.scalars.stack = [] from hstack]
    exact has_pop_nil hstack
  | cons value stack =>
  rw [show vm.scalars.stack = value :: stack from hstack]
  refine has_pop_cons hstack ?_
  have hframe' : InFrame program localCount { vm with stack := stack } :=
    ⟨hframe.frame, hframe.localCount_le⟩
  rcases hframe'.slot_cases arg1 with ⟨slot, hslot, hlt, hrun⟩ | ⟨hslot, code, message, hrun⟩
  · have hcell : slot < vm.locals.length :=
      Nat.lt_of_lt_of_eq (Nat.lt_of_lt_of_le hlt hframe.localCount_le) hfits.length.symm
    rw [hslot, has_bind hrun]
    rw [Has, EStateM.run_bind, @run_writeLocal { vm with stack := stack } _ _ hcell]
    rfl
  · rw [hslot]
    exact ⟨code, message, { vm with stack := stack }, by rw [EStateM.run_bind, hrun]⟩

/-- **The step lemma.** The machine computes the effect of each instruction. -/
theorem has_exec {localCount : Nat} {instr : Instruction} (hframe : InFrame program localCount vm)
    (hfits : vm.scalars.Fits) (hop : jitSupportsOpcode instr.opcode = true)
    (hreturn : instr.opcode ≠ .return) :
    Has (executeInstruction program instr.opcode instr.arg1 instr.arg2) vm
      (vm.scalars.exec localCount instr) := by
  obtain ⟨opcode, arg1, arg2⟩ := instr
  cases opcode with
  | «return» => exact absurd rfl hreturn
  | loadConst => exact has_push _ vm
  | loadLocal => exact has_loadLocal hframe hfits arg1 arg2
  | storeLocal => exact has_storeLocal hframe hfits arg1 arg2
  | add | sub | mul | eq | ne | lt | gt | le | ge => exact has_binary hfits
  | neg =>
    rw [executeInstruction, Scalars.exec, Scalars.unary]
    dsimp only
    cases hstack : vm.stack with
    | nil =>
      rw [show vm.scalars.stack = [] from hstack]
      exact has_pop_nil hstack
    | cons a stack =>
    rw [show vm.scalars.stack = a :: stack from hstack]
    obtain ⟨hvalue, hroom, -⟩ := hfits.tail hstack
    refine has_pop_cons hstack ?_
    rw [if_neg hvalue.ne_i64Min]
    exact @has_push_some { vm with stack := stack } _ hroom
  | not => exact has_unary hfits
  | pop =>
    rw [executeInstruction, Scalars.exec]
    dsimp only
    cases hstack : vm.stack with
    | nil =>
      rw [show vm.scalars.stack = [] from hstack]
      exact has_pop_nil hstack
    | cons value stack =>
    rw [show vm.scalars.stack = value :: stack from hstack]
    exact has_pop_cons hstack rfl
  | dup =>
    rw [executeInstruction, Scalars.exec]
    dsimp only
    cases hstack : vm.stack with
    | nil =>
      rw [show vm.scalars.stack = [] from hstack]
      refine ⟨.stackUnderflow, "Stack underflow", vm, ?_⟩
      simp only [EStateM.run_bind, EStateM.run_get, hstack]
      rfl
    | cons value stack =>
    rw [show vm.scalars.stack = value :: stack from hstack]
    have hget : (get : VmM Vm).run vm = .ok vm vm := rfl
    rw [has_bind hget, hstack]
    exact has_push value vm
  | _ => cases hop

end Vm

end MiniLang
