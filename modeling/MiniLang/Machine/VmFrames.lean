import MiniLang.Machine.VmRules

/-!
# What a step leaves alone

Most operations of the reference machine only touch values. A projection of the state that ignores
values is therefore unchanged by them; the frames, the program counter and the cycle count are
instances. From this follows what one step does to the frames.

## One proof for several projections

Different results need different parts of the state to be left alone: the call stack alone for the
chain of active functions, the call stack and the program counter for the depth of operands, the
count of cycles for the limits. Instead of proving each for each opcode, `Ignores` says of a
projection that it does not see the operand stack, the locals, the globals and the output, and the
opcodes are gone through once, in three groups: those that touch values only, those that move the
program counter, and the three that change frames.

## Frames

`FrameStep` is the inversion lemma for one step as far as frames are concerned: a call pushes one,
with the return address after the call; a return pops one and goes on at its return address; any
other instruction leaves all frames as they are. Later modules split by it and do not look at the
instruction again.
-/

namespace MiniLang

namespace Vm

variable {program : CompiledProgram} {vm vm' : Vm} {γ α β : Type} {g : Vm → γ}

/-! ## Projections that ignore values -/

/-- `g` does not look at values. -/
structure Ignores (g : Vm → γ) : Prop where
  stack : ∀ vm stack, g { vm with stack := stack } = g vm
  locals : ∀ vm locals, g { vm with locals := locals } = g vm
  globals : ∀ vm globals, g { vm with globals := globals } = g vm
  output : ∀ vm output, g { vm with output := output } = g vm

/-- `x` does not change `g`, whether it ends normally or not. -/
def Leaves (g : Vm → γ) (x : VmM α) : Prop :=
  ∀ vm, (x.run vm).Post (fun _ vm' ↦ g vm' = g vm) fun _ vm' ↦ g vm' = g vm

namespace Leaves

variable {x : VmM α} {f : α → VmM β}

theorem bind (hx : Leaves g x) (hf : ∀ a, Leaves g (f a)) : Leaves g (x >>= f) := by
  intro vm
  have h := hx vm
  rw [EStateM.run_bind]
  cases hrun : x.run vm with
  | error e vm' =>
    rw [hrun] at h
    exact h
  | ok a vm' =>
    rw [hrun] at h
    exact (hf a vm').mono (fun _ _ h' ↦ h'.trans h) fun _ _ h' ↦ h'.trans h

theorem pure (a : α) : Leaves g (Pure.pure a : VmM α) := fun _ ↦ rfl

theorem throw (e : Stop) : Leaves g (throw e : VmM α) := fun _ ↦ rfl

theorem trap (code : TrapCode) (message : String) : Leaves g (Vm.trap code message : VmM α) :=
  fun _ ↦ rfl

theorem get_bind {f : Vm → VmM β} (hf : ∀ vm, Leaves g (f vm)) : Leaves g (get >>= f) :=
  bind (fun _ ↦ rfl) hf

theorem modify {u : Vm → Vm} (h : ∀ vm, g (u vm) = g vm) : Leaves g (modify u) := h

theorem triple {x : VmM α} (h : Leaves g x) (c : γ) :
    EStateM.Triple (g · = c) x (fun _ vm ↦ g vm = c) fun _ _ ↦ True :=
  fun vm hvm ↦ (h vm).mono (fun _ _ h' ↦ h'.trans hvm) fun _ _ _ ↦ trivial

section Operands

theorem pop (hstack : ∀ vm stack, g { vm with stack := stack } = g vm) : Leaves g pop := by
  intro vm
  cases hvalues : vm.stack with
  | nil =>
    simp only [Vm.pop, EStateM.run_bind, EStateM.run_get, hvalues]
    rfl
  | cons value stack =>
    rw [run_pop hvalues]
    exact hstack vm stack

theorem push (hstack : ∀ vm stack, g { vm with stack := stack } = g vm) (value : Int) :
    Leaves g (push value) := by
  refine get_bind fun vm ↦ ?_
  split
  · exact trap _ _
  · exact modify fun vm ↦ hstack vm _

variable (hg : Ignores g)
include hg

theorem writeLocal (slot : Nat) (value : Int) : Leaves g (writeLocal slot value) := by
  refine get_bind fun vm ↦ ?_
  split
  · exact modify fun vm ↦ hg.locals vm _
  · exact throw _

theorem writeGlobal (slot : Nat) (value : Int) : Leaves g (writeGlobal slot value) := by
  refine get_bind fun vm ↦ ?_
  split
  · exact modify fun vm ↦ hg.globals vm _
  · exact throw _

theorem binary (f : Int → Int → Int) : Leaves g (binary f) :=
  (pop hg.stack).bind fun _ ↦ (pop hg.stack).bind fun _ ↦ (push hg.stack _).bind fun _ ↦ pure _

theorem copyArgs (newBase count : Nat) : Leaves g (copyArgs newBase count) := by
  induction count with
  | zero => exact pure _
  | succ count ih => exact (pop hg.stack).bind fun _ ↦ (writeLocal hg _ _).bind fun _ ↦ ih

theorem clearLocals (newBase first count : Nat) : Leaves g (clearLocals newBase first count) := by
  induction count generalizing first with
  | zero => exact pure _
  | succ count ih => exact (writeLocal hg _ _).bind fun _ ↦ ih _

end Operands

theorem readLocal (slot : Nat) : Leaves g (readLocal slot) := by
  refine get_bind fun vm ↦ ?_
  split
  · exact pure _
  · exact throw _

theorem readGlobal (slot : Nat) : Leaves g (readGlobal slot) := by
  refine get_bind fun vm ↦ ?_
  split
  · exact pure _
  · exact throw _

theorem currentLocalSlot (raw : Int32) : Leaves g (currentLocalSlot program raw) := by
  rw [Vm.currentLocalSlot]
  split
  · exact trap _ _
  refine get_bind fun vm ↦ ?_
  split
  · exact trap _ _
  dsimp only
  split
  · exact trap _ _
  split
  · exact trap _ _
  split
  · exact trap _ _
  split
  · exact trap _ _
  · exact pure _

theorem globalSlot (raw : Int32) : Leaves g (globalSlot raw) := by
  rw [Vm.globalSlot]
  split
  · exact trap _ _
  refine get_bind fun vm ↦ ?_
  dsimp only
  split
  · exact trap _ _
  · exact pure _

theorem arraySize (raw : Int32) : Leaves g (arraySize raw) := by
  rw [Vm.arraySize]
  split
  · exact trap _ _
  · exact pure _

theorem globalArrayRange (raw rawSize : Int32) : Leaves g (globalArrayRange raw rawSize) := by
  refine (globalSlot raw).bind fun slot ↦ (arraySize rawSize).bind fun size ↦ ?_
  split
  · exact trap _ _
  refine get_bind fun vm ↦ ?_
  dsimp only
  split
  · exact trap _ _
  · exact pure _

theorem arrayIndex (raw : Int) (size : Nat) : Leaves g (arrayIndex raw size) := by
  rw [Vm.arrayIndex]
  split
  · exact trap _ _
  · exact pure _

theorem localArrayBase (refSlot size : Nat) : Leaves g (localArrayBase refSlot size) := by
  refine (readLocal refSlot).bind fun raw ↦ ?_
  split
  · exact trap _ _
  split
  · exact trap _ _
  dsimp only
  split
  · exact trap _ _
  refine get_bind fun vm ↦ ?_
  split
  · exact trap _ _
  · exact pure _

/-- The instructions that do not transfer control. -/
theorem executeInstruction (hg : Ignores g) {opcode : Opcode} (arg1 arg2 : Int32)
    (h : opcode ∉ [.jump, .jumpIfFalse, .jumpIfTrue, .call, .return, .halt]) :
    Leaves g (executeInstruction program opcode arg1 arg2) := by
  have hdone : Leaves g (Pure.pure true) := pure true
  cases opcode with
  | jump | jumpIfFalse | jumpIfTrue | call | «return» | halt => simp at h
  | loadConst => exact (push hg.stack _).bind fun _ ↦ hdone
  | loadLocal =>
    refine (currentLocalSlot arg1).bind fun slot ↦ (readLocal slot).bind fun value ↦ ?_
    split
    · exact trap _ _
    · exact (push hg.stack _).bind fun _ ↦ hdone
  | storeLocal =>
    exact (pop hg.stack).bind fun _ ↦ (currentLocalSlot arg1).bind fun _ ↦ (writeLocal hg _ _).bind
      fun _ ↦ hdone
  | loadGlobal =>
    exact (globalSlot arg1).bind fun _ ↦ (readGlobal _).bind fun _ ↦
      (push hg.stack _).bind fun _ ↦ hdone
  | storeGlobal =>
    exact (globalSlot arg1).bind fun _ ↦ (pop hg.stack).bind fun _ ↦ (writeGlobal hg _ _).bind
      fun _ ↦ hdone
  | add | sub | mul | eq | ne | lt | gt | le | ge | and | or => exact binary hg _
  | div =>
    refine (pop hg.stack).bind fun b ↦ (pop hg.stack).bind fun a ↦ ?_
    split
    · exact trap _ _
    split
    · exact throw _
    · exact (push hg.stack _).bind fun _ ↦ hdone
  | neg =>
    refine (pop hg.stack).bind fun a ↦ ?_
    split
    · exact throw _
    · exact (push hg.stack _).bind fun _ ↦ hdone
  | not => exact (pop hg.stack).bind fun _ ↦ (push hg.stack _).bind fun _ ↦ hdone
  | arrayLoad =>
    exact (globalArrayRange arg1 arg2).bind fun range ↦ (pop hg.stack).bind fun _ ↦
      (arrayIndex _ _).bind fun _ ↦ (readGlobal _).bind fun _ ↦ (push hg.stack _).bind fun _ ↦ hdone
  | arrayStore =>
    exact (globalArrayRange arg1 arg2).bind fun range ↦ (pop hg.stack).bind fun _ ↦
      (pop hg.stack).bind fun _ ↦
      (arrayIndex _ _).bind fun _ ↦ (writeGlobal hg _ _).bind fun _ ↦ hdone
  | localArrayLoad =>
    exact (arraySize arg2).bind fun _ ↦ (pop hg.stack).bind fun _ ↦ (arrayIndex _ _).bind fun _ ↦
      (currentLocalSlot arg1).bind fun _ ↦ (localArrayBase _ _).bind fun _ ↦
      (readLocal _).bind fun _ ↦ (push hg.stack _).bind fun _ ↦ hdone
  | localArrayStore =>
    exact (arraySize arg2).bind fun _ ↦ (pop hg.stack).bind fun _ ↦ (pop hg.stack).bind fun _ ↦
      (arrayIndex _ _).bind fun _ ↦ (currentLocalSlot arg1).bind fun _ ↦
      (localArrayBase _ _).bind fun _ ↦ (writeLocal hg _ _).bind fun _ ↦ hdone
  | arrayNew | allocArray =>
    exact (arraySize arg1).bind fun _ ↦ get_bind fun _ ↦ (modify fun vm ↦ hg.locals vm _).bind
      fun _ ↦ (push hg.stack _).bind fun _ ↦ hdone
  | print => exact (pop hg.stack).bind fun _ ↦ (modify fun vm ↦ hg.output vm _).bind fun _ ↦ hdone
  | pop => exact (pop hg.stack).bind fun _ ↦ hdone
  | dup =>
    refine get_bind fun vm ↦ ?_
    split
    · exact trap _ _
    · exact (push hg.stack _).bind fun _ ↦ hdone

theorem call (hg : Ignores g) (hpc : ∀ vm pc, g { vm with pc := pc } = g vm)
    (hframes : ∀ vm frames, g { vm with callStack := frames } = g vm) (arg1 arg2 : Int32) :
    Leaves g (call program arg1 arg2) := by
  rw [Vm.call]
  split
  · exact trap _ _
  split
  · exact trap _ _
  dsimp only
  split
  · exact trap _ _
  next func _ =>
  split
  · exact trap _ _
  refine get_bind fun vm ↦ ?_
  split
  · exact trap _ _
  refine get_bind fun vm ↦ ?_
  split
  · exact trap _ _
  split
  · exact trap _ _
  refine (copyArgs hg _ _).bind fun _ ↦ (clearLocals hg _ _ _).bind fun _ ↦
    (modify fun vm ↦ ?_).bind fun _ ↦ pure _
  exact (hframes { vm with pc := func.entryPc } _).trans (hpc vm _)

theorem jump (hpc : ∀ vm pc, g { vm with pc := pc } = g vm) (target : Nat) :
    Leaves g (do
      MonadState.modifyGet fun vm : Vm ↦ ((), { vm with pc := target })
      return false) :=
  (modify fun vm ↦ hpc vm target).bind fun _ ↦ pure false

/-- No instruction but the three that change frames changes what ignores values and the program
counter. -/
theorem executeInstruction_of_pc (program : CompiledProgram) (hg : Ignores g)
    (hpc : ∀ vm pc, g { vm with pc := pc } = g vm)
    {opcode : Opcode} (arg1 arg2 : Int32) (h : opcode ∉ [.call, .return, .halt]) :
    Leaves g (Vm.executeInstruction program opcode arg1 arg2) := by
  by_cases hop : opcode ∉ [.jump, .jumpIfFalse, .jumpIfTrue, .call, .return, .halt]
  · exact executeInstruction hg arg1 arg2 hop
  cases opcode with
  | jump => exact jump hpc _
  | jumpIfFalse | jumpIfTrue =>
    refine (pop hg.stack).bind fun cond ↦ ?_
    split
    · exact jump hpc _
    · exact pure _
  | call | «return» | halt => simp at h
  | _ => simp at hop

/-- No instruction changes what ignores values, frames and the program counter. -/
theorem executeInstruction_of_control (program : CompiledProgram) (hg : Ignores g)
    (hpc : ∀ vm pc, g { vm with pc := pc } = g vm)
    (hframes : ∀ vm frames, g { vm with callStack := frames } = g vm) (opcode : Opcode)
    (arg1 arg2 : Int32) : Leaves g (Vm.executeInstruction program opcode arg1 arg2) := by
  by_cases hop : opcode ∉ [.call, .return, .halt]
  · exact executeInstruction_of_pc program hg hpc arg1 arg2 hop
  cases opcode with
  | call => exact call hg hpc hframes arg1 arg2
  | «return» =>
    refine (pop hg.stack).bind fun value ↦ get_bind fun vm ↦ ?_
    split
    · exact throw _
    · refine (modify fun vm ↦ hframes vm _).bind fun _ ↦ (push hg.stack value).bind fun _ ↦ ?_
      split
      · exact jump hpc _
      · exact pure _
  | halt =>
    refine get_bind fun vm ↦ (modify fun vm ↦ ?_).bind fun _ ↦ (push hg.stack _).bind fun _ ↦ pure _
    exact (hframes { vm with stack := vm.stack.tail } []).trans (hg.stack vm _)
  | _ => simp at hop

end Leaves

/-! ## Steps -/

/-- A step that goes on has executed the instruction at the program counter. -/
theorem step_inl (h : step program vm = .inl vm') : ∃ instr advance after,
    ¬(vm.maxCycles > 0 ∧ vm.cycles ≥ vm.maxCycles) ∧
    program.instructions[vm.pc]? = some instr ∧
    (executeInstruction program instr.opcode instr.arg1 instr.arg2).run
      { vm with cycles := vm.cycles + 1 } = .ok advance after ∧
    after.callStack ≠ [] ∧
    vm' = recordTrace vm (if advance then { after with pc := after.pc + 1 } else after) instr
      (if advance then .continue else .jump) := by
  rw [step] at h
  split at h
  · cases h
  next hlimit =>
  split at h
  · cases h
  next instr hinstr =>
  split at h
  · next advance after hrun =>
    rw [afterInstruction] at h
    refine ⟨instr, advance, after, hlimit, hinstr, hrun, ?_⟩
    have hframes : (if advance then { after with pc := after.pc + 1 } else after).callStack =
        after.callStack := by split <;> rfl
    generalize (if advance then { after with pc := after.pc + 1 } else after) = after' at h hframes
    dsimp only at h
    by_cases hnil : after'.callStack = []
    · rw [if_pos hnil] at h
      cases h
    · rw [if_neg hnil] at h
      exact ⟨hframes ▸ hnil, (Sum.inl.inj h).symm⟩
  · cases h
  · cases h

/-! ## Frames -/

theorem ignores_callStack : Ignores Vm.callStack :=
  ⟨fun _ _ ↦ rfl, fun _ _ ↦ rfl, fun _ _ ↦ rfl, fun _ _ ↦ rfl⟩

theorem ignores_control : Ignores fun vm ↦ (vm.callStack, vm.pc) :=
  ⟨fun _ _ ↦ rfl, fun _ _ ↦ rfl, fun _ _ ↦ rfl, fun _ _ ↦ rfl⟩

theorem post_call (program : CompiledProgram) (arg1 arg2 : Int32) (vm : Vm) :
    ((call program arg1 arg2).run vm).Post (fun advance vm' ↦ advance = false ∧
      (∃ func, program.functions.lookup (asUsize arg1) = some func ∧ vm'.pc = func.entryPc) ∧
      ∃ base, vm'.callStack = ⟨vm.pc + 1, base, asUsize arg1⟩ :: vm.callStack) fun _ _ ↦ True := by
  simp only [call]
  split
  · trivial
  split
  · trivial
  split
  · trivial
  next func hfunc =>
  split
  · trivial
  simp only [EStateM.run_bind, EStateM.run_get]
  split
  · trivial
  simp only [EStateM.run_bind, EStateM.run_get]
  split
  · trivial
  split
  · trivial
  refine EStateM.Triple.bind ((Leaves.copyArgs ignores_control _ _).triple (vm.callStack, vm.pc))
    (fun _ ↦ EStateM.Triple.bind ((Leaves.clearLocals ignores_control _ _ _).triple _)
      fun _ vm' hvm' ↦ ?_) vm rfl
  obtain ⟨hframes, hpc⟩ := Prod.mk.inj hvm'
  exact ⟨rfl, ⟨func, hfunc, rfl⟩, _, by rw [← hframes, ← hpc]⟩

theorem post_ret (vm : Vm) :
    (ret.run vm).Post (fun advance vm' ↦ advance = false ∧ ∃ frame,
      vm.callStack = frame :: vm'.callStack ∧
        vm'.pc = if frame.returnPc ≠ usizeMax then frame.returnPc else vm.pc) fun _ _ ↦ True := by
  have hpop := (Leaves.pop (g := fun vm ↦ (vm.callStack, vm.pc)) ignores_control.stack).triple
    (vm.callStack, vm.pc)
  refine EStateM.Triple.bind hpop (fun value vm₁ hcontrol₁ ↦ ?_) vm rfl
  obtain ⟨hframes₁, hpc₁⟩ := Prod.mk.inj hcontrol₁
  cases hframes : vm.callStack with
  | nil =>
    simp only [EStateM.run_bind, EStateM.run_get, hframes₁, hframes]
    trivial
  | cons frame frames =>
    simp only [EStateM.run_bind, EStateM.run_get, hframes₁, hframes, EStateM.run_modify]
    have hpush := (Leaves.push (g := fun vm ↦ (vm.callStack, vm.pc)) ignores_control.stack
      value).triple (frames, vm.pc)
    refine EStateM.Triple.bind hpush (fun _ vm₂ hcontrol₂ ↦ ?_) { vm₁ with callStack := frames }
      (Prod.ext rfl hpc₁)
    obtain ⟨hframes₂, hpc₂⟩ := Prod.mk.inj hcontrol₂
    split
    · next hback => exact ⟨rfl, frame, by rw [← hframes₂], (if_pos hback).symm⟩
    · next hlast => exact ⟨rfl, frame, by rw [hframes₂], hpc₂.trans (if_neg hlast).symm⟩

/-- What a step that executes `instr` at `pc` does to the frames. -/
inductive FrameStep (pc : Nat) (instr : Instruction) :
    List CallFrame → List CallFrame → Nat → Prop
  | stay {frames : List CallFrame} {pc' : Nat} : instr.opcode ∉ [.call, .return, .halt] →
    FrameStep pc instr frames frames pc'
  | call {frames : List CallFrame} {base pc' : Nat} : instr.opcode = .call →
    FrameStep pc instr frames (⟨pc + 1, base, asUsize instr.arg1⟩ :: frames) pc'
  | ret {frame : CallFrame} {frames : List CallFrame} {pc' : Nat} : instr.opcode = .return →
    (frame.returnPc ≠ usizeMax → pc' = frame.returnPc) →
    FrameStep pc instr (frame :: frames) frames pc'

theorem frameStep_of_step (h : step program vm = .inl vm') : ∃ instr,
    program.instructions[vm.pc]? = some instr ∧
    FrameStep vm.pc instr vm.callStack vm'.callStack vm'.pc := by
  obtain ⟨instr, advance, after, -, hinstr, hrun, hframes, rfl⟩ := step_inl h
  refine ⟨instr, hinstr, ?_⟩
  have hrecord (advance : Bool) (outcome : TraceOutcome) : (recordTrace vm (if advance then
      { after with pc := after.pc + 1 } else after) instr outcome).callStack = after.callStack := by
    cases advance <;> rfl
  rw [hrecord]
  by_cases hop : instr.opcode ∉ [.call, .return, .halt]
  · have hleaves := Leaves.executeInstruction_of_pc program ignores_callStack (fun _ _ ↦ rfl)
      instr.arg1 instr.arg2 hop { vm with cycles := vm.cycles + 1 }
    rw [hrun] at hleaves
    rw [show after.callStack = vm.callStack from hleaves]
    exact .stay hop
  obtain ⟨opcode, arg1, arg2⟩ := instr
  cases opcode with
  | call =>
    have hpost := post_call program arg1 arg2 { vm with cycles := vm.cycles + 1 }
    rw [show (call program arg1 arg2).run _ = _ from hrun] at hpost
    obtain ⟨-, -, base, hbase⟩ := hpost
    rw [hbase]
    exact .call rfl
  | «return» =>
    have hpost := post_ret { vm with cycles := vm.cycles + 1 }
    rw [show ret.run _ = _ from hrun] at hpost
    obtain ⟨rfl, frame, hframe, hpc⟩ := hpost
    rw [show vm.callStack = frame :: after.callStack from hframe]
    exact .ret rfl fun hback ↦ hpc.trans (if_pos hback)
  | halt =>
    have hpost : ((executeInstruction program .halt arg1 arg2).run
        { vm with cycles := vm.cycles + 1 }).Post
        (fun _ vm' ↦ vm'.callStack = []) fun _ _ ↦ True := by
      refine EStateM.Triple.bind ((Leaves.push ignores_callStack.stack _).triple [])
        (fun _ ↦ EStateM.Triple.pure fun _ h ↦ h)
        { vm with cycles := vm.cycles + 1, stack := vm.stack.tail, callStack := [] } rfl
    rw [hrun] at hpost
    exact absurd hpost hframes
  | _ => simp at hop

/-- A step counts one cycle. -/
theorem cycles_of_step (h : step program vm = .inl vm') :
    vm'.cycles = vm.cycles + 1 ∧ vm'.maxCycles = vm.maxCycles := by
  obtain ⟨instr, advance, after, -, -, hrun, -, rfl⟩ := step_inl h
  have hleaves := Leaves.executeInstruction_of_control program
    (g := fun vm : Vm ↦ (vm.cycles, vm.maxCycles))
    ⟨fun _ _ ↦ rfl, fun _ _ ↦ rfl, fun _ _ ↦ rfl, fun _ _ ↦ rfl⟩ (fun _ _ ↦ rfl) (fun _ _ ↦ rfl)
    instr.opcode instr.arg1 instr.arg2 { vm with cycles := vm.cycles + 1 }
  rw [hrun] at hleaves
  have hafter : after.cycles = vm.cycles + 1 ∧ after.maxCycles = vm.maxCycles :=
    Prod.mk.inj hleaves
  cases advance with
  | false => exact hafter
  | true => exact hafter

end Vm

end MiniLang
