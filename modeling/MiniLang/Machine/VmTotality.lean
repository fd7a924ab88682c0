import MiniLang.Machine.VmFrames
import MiniLang.Machine.VmSafety

/-!
# The reference machine does not panic

Whatever the bytecode does, the machine's own checks keep every index in range once the preflight
has passed. What they do not cover is the marker of an undefined local: an element of a local array
may be a cell that still holds it, and loading such an element puts the marker on the operand stack,
where it has no negation. A run is free of panics and of the marker exactly when no step loads such
an element.

## The invariant

`Unmarked` keeps the marker out of the operand stack and out of the globals, but not out of the
locals, where it stands for a variable without a value. Values get from the locals to the stack in
two places. A load of a variable checks for the marker and traps; a load of an array element does
not. Every other instruction pushes a result that was normalised to 32 bits, a copy of an operand,
or the index of an array.

## Both directions

If no step loads the marker, the invariant holds along the run, and the cycle limit ends it
(`running_reached`, `exists_runFull`). Conversely a step that loads it succeeds and leaves it on the
operand stack (`step_of_loadsMarker`). The condition is about the state before the step:
`elementCell` computes the cell from the operands and the locals, as the instruction is going to.
-/

namespace MiniLang

open Verifier

namespace Vm

variable {program : CompiledProgram} {maxCycles : Nat} {trace : Option (List TraceEvent)}
  {vm vm' : Vm}

/-! ## The invariant -/

/-- The storage of the machine has its sizes, and the marker is neither on the stack nor in a
global. -/
structure Unmarked (vm : Vm) : Prop where
  locals : maxLocalSlots ≤ vm.locals.length
  globals : vm.globals.length = maxGlobalSlots
  stack_le : vm.stack.length ≤ maxOperandStack
  stack : ∀ value ∈ vm.stack, value ≠ i64Min
  globalValues : ∀ value ∈ vm.globals, value ≠ i64Min

/-- `x` keeps the invariant and does not panic. -/
abbrev KeepsUnmarked {α : Type} (x : VmM α) (Q : α → Prop) : Prop :=
  EStateM.Triple Unmarked x (fun a vm ↦ Q a ∧ Unmarked vm) fun e _ ↦ e ≠ .panic

namespace KeepsUnmarked

variable {α β : Type} {x : VmM α} {f : α → VmM β} {Q : α → Prop} {T : β → Prop}

theorem bind (hx : KeepsUnmarked x Q) (hf : ∀ a, Q a → KeepsUnmarked (f a) T) :
    KeepsUnmarked (x >>= f) T :=
  EStateM.Triple.bind hx fun a vm hvm ↦ hf a hvm.1 vm hvm.2

theorem pure {a : α} (h : Q a) : KeepsUnmarked (Pure.pure a) Q :=
  EStateM.Triple.pure fun _ hvm ↦ ⟨h, hvm⟩

theorem trap (code : TrapCode) (message : String) : KeepsUnmarked (Vm.trap code message : VmM α) Q :=
  EStateM.Triple.throw fun _ _ h ↦ by cases h

theorem pop : KeepsUnmarked pop (· ≠ i64Min) := by
  intro vm hvm
  cases hstack : vm.stack with
  | nil =>
    simp only [Vm.pop, EStateM.run_bind, EStateM.run_get, hstack]
    exact fun h ↦ by cases h
  | cons value stack =>
    have hle := hvm.stack_le
    have hvalues := hvm.stack
    rw [hstack] at hle hvalues
    rw [run_pop hstack]
    obtain ⟨hvalue, hrest⟩ := List.forall_mem_cons.mp hvalues
    exact ⟨hvalue, { hvm with stack_le := Nat.le_of_succ_le hle, stack := hrest }⟩

theorem push {value : Int} (h : value ≠ i64Min) : KeepsUnmarked (push value) fun _ ↦ True := by
  intro vm hvm
  by_cases hlt : vm.stack.length < maxOperandStack
  · rw [run_push hlt]
    exact ⟨trivial, { hvm with
      stack_le := hlt
      stack := List.forall_mem_cons.mpr ⟨h, hvm.stack⟩ }⟩
  · rw [run_push_overflow (Nat.le_of_not_lt hlt)]
    exact fun h ↦ by cases h

theorem currentLocalSlot (raw : Int32) :
    KeepsUnmarked (currentLocalSlot program raw) (· < maxLocalSlots) := by
  intro vm hvm
  rw [Vm.currentLocalSlot]
  split
  · exact fun h ↦ by cases h
  rw [EStateM.run_bind, EStateM.run_get]
  dsimp only
  split
  · exact fun h ↦ by cases h
  split
  · exact fun h ↦ by cases h
  split
  · exact fun h ↦ by cases h
  split
  · exact fun h ↦ by cases h
  split
  · exact fun h ↦ by cases h
  · next hlt => exact ⟨Nat.lt_of_not_le hlt, hvm⟩

theorem readLocal {slot : Nat} (h : slot < maxLocalSlots) :
    KeepsUnmarked (readLocal slot) fun _ ↦ True := by
  intro vm hvm
  rw [run_readLocal (List.getElem?_eq_getElem (Nat.lt_of_lt_of_le h hvm.locals))]
  exact ⟨trivial, hvm⟩

theorem writeLocal {slot : Nat} (h : slot < maxLocalSlots) (value : Int) :
    KeepsUnmarked (writeLocal slot value) fun _ ↦ True := by
  intro vm hvm
  rw [run_writeLocal (Nat.lt_of_lt_of_le h hvm.locals)]
  exact ⟨trivial, { hvm with locals := hvm.locals.trans_eq List.length_set.symm }⟩

theorem globalSlot (raw : Int32) : KeepsUnmarked (globalSlot raw) (· < maxGlobalSlots) := by
  intro vm hvm
  rw [Vm.globalSlot]
  split
  · exact fun h ↦ by cases h
  rw [EStateM.run_bind, EStateM.run_get]
  dsimp only
  split
  · exact fun h ↦ by cases h
  · next hlt => exact ⟨hvm.globals ▸ Nat.lt_of_not_le hlt, hvm⟩

theorem arraySize (raw : Int32) : KeepsUnmarked (arraySize raw) fun _ ↦ True := by
  rw [Vm.arraySize]
  split
  · exact trap _ _
  · exact pure trivial

theorem globalArrayRange (raw rawSize : Int32) : KeepsUnmarked (globalArrayRange raw rawSize)
    fun range ↦ range.1 + range.2 ≤ maxGlobalSlots := by
  refine (globalSlot raw).bind fun slot _ ↦ (arraySize rawSize).bind fun size _ ↦ ?_
  split
  · exact trap _ _
  · next last hlast =>
    intro vm hvm
    obtain ⟨-, rfl⟩ := checkedAdd_eq_some.mp hlast
    rw [EStateM.run_bind, EStateM.run_get]
    dsimp only
    split
    · exact fun h ↦ by cases h
    · next hle => exact ⟨hvm.globals ▸ Nat.le_of_not_lt hle, hvm⟩

theorem arrayIndex (raw : Int) (size : Nat) : KeepsUnmarked (arrayIndex raw size) (· < size) := by
  rw [Vm.arrayIndex]
  split
  · exact trap _ _
  · next h => exact pure (Nat.lt_of_not_le (not_or.mp h).2)

theorem readGlobal {slot : Nat} (h : slot < maxGlobalSlots) :
    KeepsUnmarked (readGlobal slot) (· ≠ i64Min) := by
  intro vm hvm
  have hget := List.getElem?_eq_getElem (hvm.globals.symm ▸ h : slot < vm.globals.length)
  rw [run_readGlobal hget]
  exact ⟨hvm.globalValues _ (List.mem_of_getElem? hget), hvm⟩

theorem writeGlobal {slot : Nat} {value : Int} (h : slot < maxGlobalSlots) (hvalue : value ≠ i64Min) :
    KeepsUnmarked (writeGlobal slot value) fun _ ↦ True := by
  intro vm hvm
  rw [run_writeGlobal (hvm.globals.symm ▸ h)]
  refine ⟨trivial, { hvm with
    globals := List.length_set.trans hvm.globals
    globalValues := fun v hv ↦ ?_ }⟩
  rcases List.mem_or_eq_of_mem_set hv with hv | rfl
  · exact hvm.globalValues v hv
  · exact hvalue

theorem binary {f : Int → Int → Int} (h : ∀ a b, f a b ≠ i64Min) :
    KeepsUnmarked (binary f) fun _ ↦ True :=
  pop.bind fun b _ ↦ pop.bind fun a _ ↦ (push (h a b)).bind fun _ _ ↦ pure trivial

theorem copyArgs {newBase count : Nat} (h : newBase + count ≤ maxLocalSlots) :
    KeepsUnmarked (copyArgs newBase count) fun _ ↦ True := by
  induction count with
  | zero => exact pure trivial
  | succ count ih =>
    exact pop.bind fun arg _ ↦ (writeLocal (by omega) arg).bind fun _ _ ↦ ih (by omega)

theorem clearLocals {newBase first count : Nat} (h : newBase + first + count ≤ maxLocalSlots) :
    KeepsUnmarked (clearLocals newBase first count) fun _ ↦ True := by
  induction count generalizing first with
  | zero => exact pure trivial
  | succ count ih => exact (writeLocal (by omega) _).bind fun _ _ ↦ ih (by omega)

end KeepsUnmarked

/-! ## Instructions -/

/-- The cell that a `LocalArrayLoad` loads. -/
def elementCell (program : CompiledProgram) (arg1 arg2 : Int32) : VmM Nat := do
  let size ← arraySize arg2
  let index ← arrayIndex (← pop) size
  let refSlot ← currentLocalSlot program arg1
  let arrayBase ← localArrayBase refSlot size
  return arrayBase + index

theorem executeInstruction_localArrayLoad (arg1 arg2 : Int32) :
    executeInstruction program .localArrayLoad arg1 arg2 = (do
      let value ← readLocal (← elementCell program arg1 arg2)
      push value
      return true) := by
  simp only [executeInstruction, elementCell, bind_assoc, pure_bind]

/-- The step from `vm` loads an array element that holds the marker. -/
def LoadsMarker (program : CompiledProgram) (vm : Vm) : Prop :=
  ¬(vm.maxCycles > 0 ∧ vm.cycles ≥ vm.maxCycles) ∧ ∃ instr cell vm',
    program.instructions[vm.pc]? = some instr ∧ instr.opcode = .localArrayLoad ∧
    (elementCell program instr.arg1 instr.arg2).run { vm with cycles := vm.cycles + 1 } =
      .ok cell vm' ∧
    vm.locals[cell]? = some i64Min

namespace KeepsUnmarked

/-- The element is a cell of the locals, whatever the base was: the machine has checked its last
cell. -/
theorem execLocalArrayStore (arg1 arg2 : Int32) :
    KeepsUnmarked (executeInstruction program .localArrayStore arg1 arg2) fun _ ↦ True := by
  refine (arraySize arg2).bind fun size _ ↦ pop.bind fun value _ ↦ pop.bind fun raw _ ↦
    (arrayIndex raw size).bind fun index hindex ↦ (currentLocalSlot arg1).bind fun cell hcell ↦ ?_
  intro vm hvm
  have hget := List.getElem?_eq_getElem (Nat.lt_of_lt_of_le hcell hvm.locals)
  rw [EStateM.run_bind]
  rcases localArrayBase_cases size hget with ⟨-, message, hrun⟩ | ⟨message, hrun⟩ |
    ⟨base, hrun, hlast⟩
  · rw [hrun]
    exact fun h ↦ by cases h
  · rw [hrun]
    exact fun h ↦ by cases h
  · rw [hrun]
    dsimp only
    rw [EStateM.run_bind, run_writeLocal (by omega)]
    exact ⟨trivial, { hvm with locals := hvm.locals.trans_eq List.length_set.symm }⟩

/-- Both allocations append the array and push its index. -/
theorem alloc (opcode : Opcode) (h : opcode = .arrayNew ∨ opcode = .allocArray) (arg1 arg2 : Int32) :
    KeepsUnmarked (executeInstruction program opcode arg1 arg2) fun _ ↦ True := by
  have hdone (b : Bool) : KeepsUnmarked (Pure.pure b) fun _ ↦ True := pure trivial
  rcases h with rfl | rfl
  all_goals
    refine (arraySize arg1).bind fun size _ vm hvm ↦ ?_
    exact ((push (natCast_ne_i64Min _)).bind fun _ _ ↦ hdone true)
      { vm with locals := vm.locals ++ List.replicate size 0 }
      { hvm with locals := hvm.locals.trans (by simp) }

theorem execDup (arg1 arg2 : Int32) :
    KeepsUnmarked (executeInstruction program .dup arg1 arg2) fun _ ↦ True := by
  have hdone (b : Bool) : KeepsUnmarked (Pure.pure b) fun _ ↦ True := pure trivial
  intro vm hvm
  cases hstack : vm.stack with
  | nil =>
    simp only [Vm.executeInstruction, EStateM.run_bind, EStateM.run_get, hstack]
    exact fun h ↦ by cases h
  | cons value stack =>
    simp only [Vm.executeInstruction, EStateM.run_bind, EStateM.run_get, hstack]
    have hvalue := hvm.stack value (hstack ▸ List.mem_cons_self)
    exact ((push hvalue).bind fun _ _ ↦ hdone true) vm hvm

/-- The top of the operands is replaced by itself, or an empty stack gets a zero. -/
theorem execHalt (arg1 arg2 : Int32) :
    KeepsUnmarked (executeInstruction program .halt arg1 arg2) fun _ ↦ True := by
  have hdone (b : Bool) : KeepsUnmarked (Pure.pure b) fun _ ↦ True := pure trivial
  intro vm hvm
  have htop : vm.stack.head?.getD 0 ≠ i64Min := by
    cases hstack : vm.stack with
    | nil => exact natCast_ne_i64Min 0
    | cons value stack => exact hvm.stack value (hstack ▸ List.mem_cons_self)
  refine ((push htop).bind fun _ _ ↦ hdone false) { vm with stack := vm.stack.tail, callStack := [] }
    { hvm with
      stack_le := by
        have := hvm.stack_le
        simp only [List.length_tail]
        omega
      stack := fun value hvalue ↦ hvm.stack value (List.mem_of_mem_tail hvalue) }

/-- Every instruction but the two that need more: a call needs the slots of the callee, and a load
from a local array the element. -/
theorem executeInstruction {opcode : Opcode} (arg1 arg2 : Int32)
    (h : opcode ∉ [.call, .return, .localArrayLoad]) :
    KeepsUnmarked (executeInstruction program opcode arg1 arg2) fun _ ↦ True := by
  have hdone (b : Bool) : KeepsUnmarked (Pure.pure b) fun _ ↦ True := pure trivial
  have hjump (target : Nat) : KeepsUnmarked (do
      MonadState.modifyGet fun vm : Vm ↦ ((), { vm with pc := target })
      return false) fun _ ↦ True := fun vm hvm ↦ ⟨trivial, { hvm with }⟩
  cases opcode with
  | call | «return» | localArrayLoad => simp at h
  | loadConst => exact (push (toInt_ne_i64Min arg1)).bind fun _ _ ↦ hdone _
  | loadLocal =>
    refine (currentLocalSlot arg1).bind fun slot hslot ↦ (readLocal hslot).bind fun value _ ↦ ?_
    split
    · exact trap _ _
    · next hvalue => exact (push hvalue).bind fun _ _ ↦ hdone _
  | storeLocal =>
    exact pop.bind fun value _ ↦ (currentLocalSlot arg1).bind fun slot hslot ↦
      (writeLocal hslot value).bind fun _ _ ↦ hdone _
  | loadGlobal =>
    exact (globalSlot arg1).bind fun slot hslot ↦ (readGlobal hslot).bind fun value hvalue ↦
      (push hvalue).bind fun _ _ ↦ hdone _
  | storeGlobal =>
    exact (globalSlot arg1).bind fun slot hslot ↦ pop.bind fun value hvalue ↦
      (writeGlobal hslot hvalue).bind fun _ _ ↦ hdone _
  | add | sub | mul => exact binary fun _ _ ↦ normalizeI32_ne_i64Min _
  | eq | ne | lt | gt | le | ge | and | or => exact binary fun _ _ ↦ flag_ne_i64Min _
  | div =>
    refine pop.bind fun b _ ↦ pop.bind fun a ha ↦ ?_
    split
    · exact trap _ _
    split
    · next hover => exact absurd hover.1 ha
    · exact (push (normalizeI32_ne_i64Min _)).bind fun _ _ ↦ hdone _
  | neg =>
    refine pop.bind fun a ha ↦ ?_
    split
    · next hover => exact absurd hover ha
    · exact (push (normalizeI32_ne_i64Min _)).bind fun _ _ ↦ hdone _
  | not => exact pop.bind fun a _ ↦ (push (flag_ne_i64Min _)).bind fun _ _ ↦ hdone _
  | jump => exact hjump _
  | jumpIfFalse | jumpIfTrue =>
    refine pop.bind fun cond _ ↦ ?_
    split
    · exact hjump _
    · exact hdone _
  | arrayLoad =>
    refine (globalArrayRange arg1 arg2).bind fun range hrange ↦ pop.bind fun raw _ ↦
      (arrayIndex raw range.2).bind fun index hindex ↦ ?_
    exact (readGlobal (by omega)).bind fun value hvalue ↦ (push hvalue).bind fun _ _ ↦ hdone _
  | arrayStore =>
    refine (globalArrayRange arg1 arg2).bind fun range hrange ↦ pop.bind fun value hvalue ↦
      pop.bind fun raw _ ↦ (arrayIndex raw range.2).bind fun index hindex ↦ ?_
    exact (writeGlobal (by omega) hvalue).bind fun _ _ ↦ hdone _
  | localArrayStore => exact execLocalArrayStore arg1 arg2
  | arrayNew => exact alloc .arrayNew (.inl rfl) arg1 arg2
  | allocArray => exact alloc .allocArray (.inr rfl) arg1 arg2
  | print => exact pop.bind fun value _ vm hvm ↦ ⟨trivial, { hvm with }⟩
  | pop => exact pop.bind fun _ _ ↦ hdone _
  | dup => exact execDup arg1 arg2
  | halt => exact execHalt arg1 arg2

theorem call (hslots : ∀ id info, program.functions.lookup id = some info → SlotsOk info)
    (arg1 arg2 : Int32) : KeepsUnmarked (call program arg1 arg2) fun _ ↦ True := by
  rw [Vm.call]
  split
  · exact trap _ _
  split
  · exact trap _ _
  dsimp only
  split
  · exact trap _ _
  next func hfunc =>
  split
  · exact trap _ _
  next hparams =>
  intro vm hvm
  rw [EStateM.run_bind, EStateM.run_get]
  dsimp only
  split
  · exact fun h ↦ by cases h
  rw [EStateM.run_bind, EStateM.run_get]
  dsimp only
  split
  · exact fun h ↦ by cases h
  next required hadd =>
  obtain ⟨-, rfl⟩ := checkedAdd_eq_some.mp hadd
  split
  · exact fun h ↦ by cases h
  next hlimit =>
  have hcount := (hslots _ _ hfunc).1
  have henter (base : Nat) : KeepsUnmarked (do
      modify fun vm' : Vm ↦ { vm' with
        callStack := ⟨vm'.pc + 1, base, asUsize arg1⟩ :: vm'.callStack
        pc := func.entryPc }
      return false) fun _ ↦ True := fun vm' hvm' ↦ ⟨trivial, { hvm' with }⟩
  exact ((copyArgs (by omega)).bind fun _ _ ↦ (clearLocals (by omega)).bind fun _ _ ↦ henter _) vm hvm

theorem ret (vm : Vm) (hvm : Unmarked vm) (hframes : vm.callStack ≠ []) :
    (ret.run vm).Post (fun _ vm' ↦ Unmarked vm') fun e _ ↦ e ≠ .panic := by
  have hpop := pop vm hvm
  have hkept := Leaves.pop ignores_callStack.stack vm
  rw [Vm.ret, EStateM.run_bind]
  cases hrun : Vm.pop.run vm with
  | error e vm' =>
    rw [hrun] at hpop
    exact hpop
  | ok value vm' =>
    rw [hrun] at hpop hkept
    obtain ⟨frame, frames, hcall⟩ := List.exists_cons_of_ne_nil hframes
    have hcall' : vm'.callStack = frame :: frames := hkept.trans hcall
    simp only [EStateM.run_bind, EStateM.run_get, hcall']
    have hback : KeepsUnmarked (do
        Vm.push value
        if frame.returnPc ≠ usizeMax then modify fun vm : Vm ↦ { vm with pc := frame.returnPc }
        return false) fun _ ↦ True := by
      refine (push hpop.1).bind fun _ _ ↦ ?_
      split
      · exact fun vm'' hvm'' ↦ ⟨trivial, { hvm'' with }⟩
      · exact pure trivial
    exact (hback { vm' with callStack := frames } { hpop.2 with }).mono (fun _ _ h ↦ h.2) fun _ _ h ↦ h

/-- The cell of an element is one of the locals. -/
theorem elementCell (arg1 arg2 : Int32) :
    EStateM.Triple Unmarked (elementCell program arg1 arg2)
      (fun cell vm ↦ cell < vm.locals.length ∧ Unmarked vm) fun e _ ↦ e ≠ .panic := by
  refine EStateM.Triple.bind (arraySize arg2) fun size vm hvm ↦ ?_
  refine EStateM.Triple.bind pop (fun raw vm hvm ↦ ?_) vm hvm.2
  refine EStateM.Triple.bind (arrayIndex raw size) (fun index vm hvm ↦ ?_) vm hvm.2
  obtain ⟨hindex, hvm⟩ := hvm
  refine EStateM.Triple.bind (currentLocalSlot arg1) (fun cell vm hvm ↦ ?_) vm hvm
  obtain ⟨hcell, hvm⟩ := hvm
  have hget := List.getElem?_eq_getElem (Nat.lt_of_lt_of_le hcell hvm.locals)
  rw [EStateM.run_bind]
  rcases localArrayBase_cases size hget with ⟨-, message, hrun⟩ | ⟨message, hrun⟩ |
    ⟨base, hrun, hlast⟩
  · rw [hrun]
    exact fun h ↦ by cases h
  · rw [hrun]
    exact fun h ↦ by cases h
  · rw [hrun]
    exact ⟨by omega, hvm⟩

end KeepsUnmarked

/-- Finding the element takes the index from the stack and changes nothing else. -/
theorem post_elementCell (arg1 arg2 : Int32) (vm : Vm) :
    ((elementCell program arg1 arg2).run vm).Post
      (fun _ vm' ↦ ∃ index stack, vm.stack = index :: stack ∧ vm' = { vm with stack := stack })
      fun _ _ ↦ True := by
  refine EStateM.Triple.bind ((Leaves.arraySize arg2).triple (g := id) vm) (fun size vm₁ h₁ ↦ ?_) vm rfl
  obtain rfl : vm₁ = vm := h₁
  rw [EStateM.run_bind]
  cases hstack : vm₁.stack with
  | nil =>
    simp only [Vm.pop, EStateM.run_bind, EStateM.run_get, hstack]
    trivial
  | cons index stack =>
    rw [run_pop hstack]
    refine EStateM.Triple.bind ((Leaves.arrayIndex index size).triple (g := id) _) (fun _ ↦
      EStateM.Triple.bind ((Leaves.currentLocalSlot arg1).triple _) fun slot ↦
      EStateM.Triple.bind ((Leaves.localArrayBase slot size).triple _) fun _ ↦ ?_)
      { vm₁ with stack := stack } rfl
    exact fun vm₂ h₂ ↦ ⟨index, stack, rfl, h₂⟩

/-! ## Steps -/

/-- A state of the loop keeps the invariant, and has a frame. -/
structure Running (vm : Vm) : Prop extends Unmarked vm where
  frames : vm.callStack ≠ []

theorem Running.executeInstruction
    (hslots : ∀ id info, program.functions.lookup id = some info → SlotsOk info)
    (hvm : Running vm) (hload : ¬LoadsMarker program vm)
    (hlimit : ¬(vm.maxCycles > 0 ∧ vm.cycles ≥ vm.maxCycles)) {instr : Instruction}
    (hinstr : program.instructions[vm.pc]? = some instr) :
    ((executeInstruction program instr.opcode instr.arg1 instr.arg2).run
      { vm with cycles := vm.cycles + 1 }).Post (fun _ vm' ↦ Unmarked vm') fun e _ ↦ e ≠ .panic := by
  have hcycle : Unmarked { vm with cycles := vm.cycles + 1 } := { hvm.toUnmarked with }
  by_cases hop : instr.opcode ∉ [.call, .return, .localArrayLoad]
  · exact (KeepsUnmarked.executeInstruction instr.arg1 instr.arg2 hop _ hcycle).mono
      (fun _ _ h ↦ h.2) fun _ _ h ↦ h
  obtain ⟨opcode, arg1, arg2⟩ := instr
  cases opcode with
  | call => exact (KeepsUnmarked.call hslots arg1 arg2 _ hcycle).mono (fun _ _ h ↦ h.2) fun _ _ h ↦ h
  | «return» => exact KeepsUnmarked.ret _ hcycle hvm.frames
  | localArrayLoad =>
    have hcell := @KeepsUnmarked.elementCell program arg1 arg2 _ hcycle
    have hpost := @post_elementCell program arg1 arg2 { vm with cycles := vm.cycles + 1 }
    dsimp only
    rw [executeInstruction_localArrayLoad, EStateM.run_bind]
    cases hrun : (elementCell program arg1 arg2).run { vm with cycles := vm.cycles + 1 } with
    | error e vm' =>
      rw [hrun] at hcell
      exact hcell
    | ok cell vm' =>
      rw [hrun] at hcell hpost
      obtain ⟨index, stack, -, rfl⟩ := hpost
      obtain ⟨hlt, hvm'⟩ := hcell
      obtain ⟨value, hget⟩ : ∃ value, vm.locals[cell]? = some value :=
        ⟨_, List.getElem?_eq_getElem hlt⟩
      have hvalue : value ≠ i64Min := fun hmark ↦
        hload ⟨hlimit, _, cell, _, hinstr, rfl, hrun, hmark ▸ hget⟩
      have hpush : KeepsUnmarked (do push value; return true) fun _ ↦ True :=
        (KeepsUnmarked.push hvalue).bind fun _ _ ↦ .pure trivial
      dsimp only
      rw [EStateM.run_bind, @run_readLocal { vm with cycles := vm.cycles + 1, stack := stack } _ _ hget]
      exact (hpush _ hvm').mono (fun _ _ h ↦ h.2) fun _ _ h ↦ h
  | _ => simp at hop

/-- A step that does not panic. -/
def StepsOn : Vm ⊕ (VmHalt × Vm) → Prop
  | .inl vm => Running vm
  | .inr (halt, _) => ∃ result, halt = .result result

/-- **The step lemma.** -/
theorem Running.step (hslots : ∀ id info, program.functions.lookup id = some info → SlotsOk info)
    (hvm : Running vm) (hload : ¬LoadsMarker program vm) : StepsOn (step program vm) := by
  rw [Vm.step]
  by_cases hlimit : vm.maxCycles > 0 ∧ vm.cycles ≥ vm.maxCycles
  · rw [if_pos hlimit]
    exact ⟨_, rfl⟩
  rw [if_neg hlimit]
  cases hinstr : program.instructions[vm.pc]? with
  | none => exact ⟨_, rfl⟩
  | some instr =>
  dsimp only
  have hexec := hvm.executeInstruction hslots hload hlimit hinstr
  cases hrun : (Vm.executeInstruction program instr.opcode instr.arg1 instr.arg2).run
      { vm with cycles := vm.cycles + 1 } with
  | error e vm' =>
    rw [hrun] at hexec
    cases e with
    | trap code message => exact ⟨_, rfl⟩
    | panic => exact absurd rfl hexec
  | ok advance vm' =>
    rw [hrun] at hexec
    dsimp only
    rw [afterInstruction]
    have hafter : Unmarked (if advance then { vm' with pc := vm'.pc + 1 } else vm') := by
      split
      · exact { hexec with }
      · exact hexec
    generalize (if advance then { vm' with pc := vm'.pc + 1 } else vm') = after at hafter
    dsimp only
    by_cases hframes : after.callStack = []
    · rw [if_pos hframes]
      exact ⟨_, rfl⟩
    · rw [if_neg hframes]
      exact { hafter with frames := hframes }

/-- A step that loads the marker leaves it on the stack. -/
theorem step_of_loadsMarker (hvm : Running vm) (hload : LoadsMarker program vm) :
    ∃ vm', step program vm = .inl vm' ∧ i64Min ∈ vm'.stack := by
  obtain ⟨hlimit, ⟨opcode, arg1, arg2⟩, cell, vm', hinstr, rfl, hcell, hmark⟩ := hload
  have hpost := @post_elementCell program arg1 arg2 { vm with cycles := vm.cycles + 1 }
  rw [hcell] at hpost
  obtain ⟨index, stack, hstack, rfl⟩ := hpost
  have hstack : vm.stack = index :: stack := hstack
  have hroom : stack.length < maxOperandStack := by
    have hle := hvm.stack_le
    rw [hstack] at hle
    exact hle
  have hrun : (executeInstruction program .localArrayLoad arg1 arg2).run
      { vm with cycles := vm.cycles + 1 } =
      .ok true { vm with cycles := vm.cycles + 1, stack := i64Min :: stack } := by
    rw [executeInstruction_localArrayLoad, EStateM.run_bind, hcell]
    dsimp only
    rw [EStateM.run_bind,
      @run_readLocal { vm with cycles := vm.cycles + 1, stack := stack } _ _ hmark]
    dsimp only
    rw [EStateM.run_bind, @run_push { vm with cycles := vm.cycles + 1, stack := stack } _ hroom]
    rfl
  have hstep : step program vm = .inl (recordTrace vm { vm with
      pc := vm.pc + 1
      cycles := vm.cycles + 1
      stack := i64Min :: stack } ⟨.localArrayLoad, arg1, arg2⟩ .continue) := by
    rw [step, if_neg hlimit, hinstr]
    simp only [hrun]
    rw [afterInstruction]
    exact if_neg hvm.frames
  exact ⟨_, hstep, List.mem_cons_self⟩

/-! ## Runs -/

theorem running_start {vm₀ : Vm} (h : start program (init maxCycles trace) = .inl vm₀) :
    Running vm₀ := by
  rw [start] at h
  split at h
  · cases h
  split at h
  · cases h
  split at h
  · cases h
  obtain rfl := Sum.inl.inj h
  exact
    { locals := List.length_replicate.ge
      globals := List.length_replicate
      stack_le := Nat.zero_le _
      stack := fun _ hmem ↦ absurd hmem List.not_mem_nil
      globalValues := fun value hmem ↦ List.eq_of_mem_replicate hmem ▸ natCast_ne_i64Min 0
      frames := List.cons_ne_nil _ _ }

/-- **The run lemma.** As long as no step loads the marker, a run keeps the invariant. -/
theorem running_reached (hslots : ∀ id info, program.functions.lookup id = some info → SlotsOk info)
    (hload : ∀ vm, Reached program maxCycles trace vm → ¬LoadsMarker program vm)
    (h : Reached program maxCycles trace vm) : Running vm := by
  obtain ⟨vm₀, hstart, hreaches⟩ := h
  induction hreaches with
  | refl => exact running_start hstart
  | tail hreaches hstep ih =>
    have hnext := ih.step hslots (hload _ ⟨vm₀, hstart, hreaches⟩)
    rw [hstep] at hnext
    exact hnext

/-- The cycle limit bounds every run. -/
theorem exists_runFull (program : CompiledProgram) (hmax : 0 < maxCycles)
    (trace : Option (List TraceEvent)) :
    ∃ fuel halt vm, runFull program fuel (init maxCycles trace) = some (halt, vm) := by
  cases hstart : start program (init maxCycles trace) with
  | inr result => exact ⟨0, .result result, init maxCycles trace, by rw [runFull, hstart]⟩
  | inl vm₀ =>
    have hvm₀ : vm₀.maxCycles = maxCycles := by
      rw [start] at hstart
      split at hstart
      · cases hstart
      split at hstart
      · cases hstart
      split at hstart
      · cases hstart
      obtain rfl := Sum.inl.inj hstart
      rfl
    obtain ⟨⟨halt, vm⟩, hrun⟩ := Stepping.exists_run_of_measure
      (fun vm : Vm ↦ maxCycles - vm.cycles) (fun vm ↦ vm.maxCycles = maxCycles)
      (fun vm vm' hvm (hstep : step program vm = .inl vm') ↦ by
        obtain ⟨hcycles, hkept⟩ := cycles_of_step hstep
        obtain ⟨_, _, _, hlimit, -⟩ := step_inl hstep
        exact ⟨hkept.trans hvm, by omega⟩) hvm₀
    exact ⟨_, halt, vm, by rw [runFull, hstart]; exact hrun⟩

/-- **Totality.** A run of a verified program with a cycle limit ends with a result, without
panicking and without the marker of an undefined local on the operand stack, if and only if no
step loads an array element that holds the marker. -/
theorem total_iff (hvalid : (verify program).valid = true) (hmax : 0 < maxCycles)
    (trace : Option (List TraceEvent)) :
    ((∃ fuel result vm, runFull program fuel (init maxCycles trace) = some (.result result, vm)) ∧
      ∀ vm, Reached program maxCycles trace vm → i64Min ∉ vm.stack) ↔
    ∀ vm, Reached program maxCycles trace vm → ¬LoadsMarker program vm := by
  have hslots := (verified_of_valid hvalid).slots
  constructor
  · rintro ⟨-, hstack⟩ vm ⟨vm₀, hstart, hreaches⟩ hload
    have hrunning : Running vm := by
      clear hload
      induction hreaches with
      | refl => exact running_start hstart
      | @tail vm vm' hreaches hstep ih =>
        have hnext := ih.step hslots fun hload ↦ by
          obtain ⟨vm'', hstep'', hmem⟩ := step_of_loadsMarker ih hload
          exact hstack vm'' ⟨vm₀, hstart, hreaches.tail hstep''⟩ hmem
        rw [hstep] at hnext
        exact hnext
    obtain ⟨vm', hstep, hmem⟩ := step_of_loadsMarker hrunning hload
    exact hstack vm' ⟨vm₀, hstart, hreaches.tail hstep⟩ hmem
  · intro hload
    refine ⟨?_, fun vm hvm hmem ↦ (running_reached hslots hload hvm).stack _ hmem rfl⟩
    obtain ⟨fuel, halt, vm, hrun⟩ := exists_runFull program hmax trace
    rcases exists_reached_of_runFull hrun with ⟨result, -, rfl⟩ | ⟨vm', hreached, hstep⟩
    · exact ⟨fuel, result, vm, hrun⟩
    · have hend := (running_reached hslots hload hreached).step hslots (hload vm' hreached)
      rw [hstep] at hend
      obtain ⟨result, rfl⟩ := hend
      exact ⟨fuel, result, vm, hrun⟩

/-- The negation of an element of a local array that was allocated. -/
def negatesElement : CompiledProgram where
  instructions := [⟨.allocArray, 1, 0⟩, ⟨.storeLocal, 0, 0⟩, ⟨.loadConst, 0, 0⟩,
    ⟨.localArrayLoad, 0, 1⟩, ⟨.neg, 0, 0⟩, ⟨.return, 0, 0⟩]
  functions := AList.singleton 0 ⟨"main", 0, 0, 0, 1⟩
  globals := ∅
  mainFuncId := 0
  constants := []

theorem total_negatesElement :
    (∃ fuel result vm, runFull negatesElement fuel (init 100 none) = some (.result result, vm)) ∧
      ∀ vm, Reached negatesElement 100 none vm → i64Min ∉ vm.stack := by
  refine (total_iff (by decide +kernel) (by decide) none).mpr fun vm hreached hload ↦ ?_
  obtain ⟨-, instr, cell, vm', hinstr, hop, hrun, hcell⟩ := hload
  have hloads : ∀ instr ∈ negatesElement.instructions, instr.opcode = .localArrayLoad →
      instr = ⟨.localArrayLoad, 0, 1⟩ := by decide
  obtain rfl := hloads instr (List.mem_of_getElem? hinstr) hop
  have hcheck := hreached.of_checked rfl (show Stepping.checked (step negatesElement)
    (fun vm ↦ match (elementCell negatesElement 0 1).run { vm with cycles := vm.cycles + 1 } with
      | .ok cell _ => vm.locals[cell]? ≠ some i64Min
      | .error .. => true) 6 _ = true by decide +kernel)
  rw [hrun] at hcheck
  exact of_decide_eq_true hcheck hcell

/-- A local array whose base is an ordinary number: its only element is an unused cell. -/
def loadsMarker : CompiledProgram where
  instructions := [⟨.loadConst, 5, 0⟩, ⟨.storeLocal, 0, 0⟩, ⟨.loadConst, 0, 0⟩,
    ⟨.localArrayLoad, 0, 1⟩, ⟨.neg, 0, 0⟩, ⟨.return, 0, 0⟩]
  functions := AList.singleton 0 ⟨"main", 0, 0, 0, 1⟩
  globals := ∅
  mainFuncId := 0
  constants := []

theorem valid_loadsMarker : (verify loadsMarker).valid = true := by decide +kernel

theorem not_total_loadsMarker :
    ¬∀ program, (verify program).valid = true → ∀ maxCycles > 0, ∀ trace,
      (∃ fuel result vm, runFull program fuel (init maxCycles trace) = some (.result result, vm)) ∧
      ∀ vm, Reached program maxCycles trace vm → i64Min ∉ vm.stack := by
  intro h
  obtain ⟨⟨fuel, result, vm, hrun⟩, -⟩ := h loadsMarker valid_loadsMarker 100 (by decide) none
  have hpanic : (runFull loadsMarker 6 (init 100 none)).map Prod.fst = some .panic := by
    decide +kernel
  obtain ⟨⟨_, vm'⟩, hpanic, rfl⟩ := Option.map_eq_some_iff.mp hpanic
  have hstart : ∃ vm₀, start loadsMarker (init 100 none) = .inl vm₀ := ⟨_, rfl⟩
  obtain ⟨vm₀, hstart⟩ := hstart
  rw [runFull, hstart] at hrun hpanic
  have := Stepping.run_unique hrun hpanic
  cases this

end Vm

end MiniLang
