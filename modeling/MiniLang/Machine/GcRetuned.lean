import MiniLang.Machine.GcTotality

/-!
# Cycles and traces of the collecting machine

As on the reference machine, no instruction looks at the count of cycles, at its limit or at the
trace, and none changes them; neither does a collection.

## The statement

`retune` sets the three fields. A computation that is `Blind` to it does the same with them as
without, and leaves them as they are. There is one lemma for each operand function and one for each
opcode.

## What follows

A run with a trace goes through the states of the run without one, and ends as it does, since
recording an event sets no other field. An instruction that is blind to `retune` also keeps the
three fields: set them to their own values, and the result is as it was.
-/

namespace MiniLang

open EStateM

namespace GcVm

variable {program : CompiledProgram} {α : Type}

/-- The machine with another count of cycles, another limit and another trace. -/
def retune (cycles limit : Nat) (trace : Option (List TraceEvent)) (vm : GcVm) : GcVm :=
  { vm with cycles := cycles, maxCycles := limit, trace := trace }

section

variable {cycles limit : Nat} {trace : Option (List TraceEvent)}

theorem takeSlot_retune (vm : GcVm) (array : HeapArray) :
    (retune cycles limit trace vm).takeSlot array =
      ((vm.takeSlot array).1, retune cycles limit trace (vm.takeSlot array).2) := by
  cases hfree : vm.freeArraySlots with
  | nil => simp only [takeSlot, retune, hfree]
  | cons slot free => simp only [takeSlot, retune, hfree]

theorem allocArray_retune (vm : GcVm) (size : Nat) :
    (retune cycles limit trace vm).allocArray size =
      ((vm.allocArray size).1, retune cycles limit trace (vm.allocArray size).2) := by
  rw [allocArray, allocArray]
  by_cases hfull : vm.heapArrays.length - vm.freeArraySlots.length ≥ vm.gcThreshold
  · have hfull' : (retune cycles limit trace vm).heapArrays.length -
        (retune cycles limit trace vm).freeArraySlots.length ≥
          (retune cycles limit trace vm).gcThreshold := hfull
    rw [if_pos hfull, if_pos hfull']
    exact takeSlot_retune vm.collectGarbage _
  · have hfull' : ¬(retune cycles limit trace vm).heapArrays.length -
        (retune cycles limit trace vm).freeArraySlots.length ≥
          (retune cycles limit trace vm).gcThreshold := hfull
    rw [if_neg hfull, if_neg hfull']
    exact takeSlot_retune vm _

theorem blind_trap (code : TrapCode) (message : String) :
    Blind (retune cycles limit trace) (trap code message : GcVmM α) := .throw _

theorem blind_pop : Blind (retune cycles limit trace) pop := by
  refine .get_bind (fun _ ↦ rfl) fun vm ↦ ?_
  split
  · exact blind_trap _ _
  · exact .bind (.modify fun _ ↦ rfl) fun _ ↦ .pure _

theorem blind_push (value : GcValue) : Blind (retune cycles limit trace) (push value) :=
  .get_bind (fun _ ↦ rfl) fun _ ↦ .ite (blind_trap _ _) (.modify fun _ ↦ rfl)

theorem blind_popInt : Blind (retune cycles limit trace) popInt :=
  .bind blind_pop fun _ ↦ .pure _

theorem blind_currentFrame : Blind (retune cycles limit trace) currentFrame := by
  refine .get_bind (fun _ ↦ rfl) fun vm ↦ ?_
  split
  · exact blind_trap _ _
  · exact .pure _

theorem blind_currentLocalSlot (raw : Int32) :
    Blind (retune cycles limit trace) (currentLocalSlot raw) :=
  .ite (blind_trap _ _) (.bind blind_currentFrame fun _ ↦ .ite (blind_trap _ _) (.pure _))

theorem blind_globalSlot (raw : Int32) : Blind (retune cycles limit trace) (globalSlot raw) :=
  .ite (blind_trap _ _) (.get_bind (fun _ ↦ rfl) fun _ ↦ .ite (blind_trap _ _) (.pure _))

theorem blind_arraySize (raw : Int32) : Blind (retune cycles limit trace) (arraySize raw) :=
  .ite (blind_trap _ _) (.pure _)

theorem blind_globalArrayRange (raw rawSize : Int32) :
    Blind (retune cycles limit trace) (globalArrayRange raw rawSize) := by
  refine .bind (blind_globalSlot raw) fun base ↦ .bind (blind_arraySize rawSize) fun size ↦ ?_
  split
  · exact blind_trap _ _
  · exact .get_bind (fun _ ↦ rfl) fun _ ↦ .ite (blind_trap _ _) (.pure _)

theorem blind_arrayIndex (raw : Int) (size : Nat) :
    Blind (retune cycles limit trace) (arrayIndex raw size) := .ite (blind_trap _ _) (.pure _)

theorem blind_readGlobal (slot : Nat) : Blind (retune cycles limit trace) (readGlobal slot) := by
  refine .get_bind (fun _ ↦ rfl) fun vm ↦ ?_
  split
  · exact .pure _
  · exact .throw _

theorem blind_writeGlobal (slot : Nat) (value : GcValue) :
    Blind (retune cycles limit trace) (writeGlobal slot value) :=
  .get_bind (fun _ ↦ rfl) fun _ ↦ .ite (.modify fun _ ↦ rfl) (.throw _)

theorem blind_setLocal (slot : Nat) (value : GcValue) :
    Blind (retune cycles limit trace) (setLocal slot value) := by
  refine .get_bind (fun _ ↦ rfl) fun vm ↦ ?_
  split
  · exact blind_trap _ _
  · exact .modify fun _ ↦ rfl

theorem blind_loadElement (id index : Nat) :
    Blind (retune cycles limit trace) (loadElement id index) := by
  refine .get_bind (fun _ ↦ rfl) fun vm ↦ ?_
  split
  · exact blind_trap _ _
  · split
    · exact .pure _
    · exact blind_trap _ _

theorem blind_storeElement (id index : Nat) (value : Int) :
    Blind (retune cycles limit trace) (storeElement id index value) := by
  refine .get_bind (fun _ ↦ rfl) fun vm ↦ ?_
  split
  · exact blind_trap _ _
  · exact .ite (.modify fun _ ↦ rfl) (blind_trap _ _)

theorem blind_binary (f : Int → Int → Int) : Blind (retune cycles limit trace) (binary f) :=
  .bind blind_popInt fun _ ↦ .bind blind_popInt fun _ ↦ .bind (blind_push _) fun _ ↦ .pure _

theorem blind_logical (f : Bool → Bool → Bool) : Blind (retune cycles limit trace) (logical f) :=
  .bind blind_pop fun _ ↦ .bind blind_pop fun _ ↦ .bind (blind_push _) fun _ ↦ .pure _

theorem blind_popArgs (count : Nat) (args : List GcValue) :
    Blind (retune cycles limit trace) (popArgs count args) := by
  induction count generalizing args with
  | zero => exact .pure _
  | succ count ih => exact .bind blind_pop fun _ ↦ ih _

theorem blind_alloc (arg1 : Int32) : Blind (retune cycles limit trace) (alloc arg1) :=
  .bind (blind_arraySize arg1) fun _ ↦
    .bind (.modifyGet fun vm ↦ allocArray_retune vm _) fun _ ↦
      .bind (blind_push _) fun _ ↦ .pure _

theorem blind_ret : Blind (retune cycles limit trace) ret := by
  refine .bind blind_pop fun value ↦ .get_bind (fun _ ↦ rfl) fun vm ↦ ?_
  split
  · exact .throw _
  · refine .bind (.modify fun _ ↦ rfl) fun _ ↦ ?_
    have hreturn : Blind (retune cycles limit trace) (do
        push value
        return false : GcVmM Bool) := .bind (blind_push value) fun _ ↦ .pure _
    exact .ite (.bind (.modify fun _ ↦ rfl) fun _ ↦ hreturn) hreturn

theorem blind_call (arg1 arg2 : Int32) :
    Blind (retune cycles limit trace) (call program arg1 arg2) := by
  refine .ite (blind_trap _ _) (.ite (blind_trap _ _) ?_)
  dsimp only
  split
  · exact blind_trap _ _
  · exact .get_bind (fun _ ↦ rfl) fun _ ↦ .ite (blind_trap _ _) (.ite (blind_trap _ _)
      (.bind (blind_popArgs _ _) fun _ ↦ .bind (.modify fun _ ↦ rfl) fun _ ↦ .pure _))

theorem blind_jump (target : Nat) : Blind (retune cycles limit trace) (do
    modify fun vm : GcVm ↦ { vm with pc := target }
    return false : GcVmM Bool) :=
  .bind (.modify fun _ ↦ rfl) fun _ ↦ .pure _

/-- **Instructions are blind** to cycles and to the trace. -/
theorem blind_executeInstruction (opcode : Opcode) (arg1 arg2 : Int32) :
    Blind (retune cycles limit trace) (executeInstruction program opcode arg1 arg2) := by
  have hdone : Blind (retune cycles limit trace) (pure true : GcVmM Bool) := .pure true
  cases opcode with
  | loadConst => exact .bind (blind_push _) fun _ ↦ hdone
  | loadLocal =>
    refine .bind (blind_currentLocalSlot arg1) fun slot ↦ .bind blind_currentFrame fun frame ↦ ?_
    split
    · exact .bind (blind_push _) fun _ ↦ hdone
    · exact blind_trap _ _
  | storeLocal =>
    exact .bind (blind_currentLocalSlot arg1) fun _ ↦ .bind blind_pop fun _ ↦
      .bind (blind_setLocal _ _) fun _ ↦ hdone
  | loadGlobal =>
    exact .bind (blind_globalSlot arg1) fun _ ↦ .bind (blind_readGlobal _) fun _ ↦
      .bind (blind_push _) fun _ ↦ hdone
  | storeGlobal =>
    exact .bind (blind_globalSlot arg1) fun _ ↦ .bind blind_pop fun _ ↦
      .bind (blind_writeGlobal _ _) fun _ ↦ hdone
  | add | sub | mul | eq | ne | lt | gt | le | ge => exact blind_binary _
  | and | or => exact blind_logical _
  | div =>
    exact .bind blind_popInt fun _ ↦ .bind blind_popInt fun _ ↦ .ite (blind_trap _ _)
      (.ite (.throw _) (.bind (blind_push _) fun _ ↦ hdone))
  | neg => exact .bind blind_popInt fun _ ↦ .ite (.throw _) (.bind (blind_push _) fun _ ↦ hdone)
  | not => exact .bind blind_pop fun _ ↦ .bind (blind_push _) fun _ ↦ hdone
  | jump => exact blind_jump _
  | jumpIfFalse | jumpIfTrue => exact .bind blind_pop fun _ ↦ .ite (blind_jump _) (.pure _)
  | call => exact blind_call arg1 arg2
  | «return» => exact blind_ret
  | arrayLoad =>
    refine .bind (blind_globalArrayRange arg1 arg2) fun range ↦ .bind blind_popInt fun _ ↦
      .bind (blind_arrayIndex _ _) fun _ ↦ .bind (blind_readGlobal _) fun value ↦ ?_
    cases value with
    | int value => exact .bind (blind_readGlobal _) fun _ ↦ .bind (blind_push _) fun _ ↦ hdone
    | arrayRef id => exact .bind (blind_loadElement _ _) fun _ ↦ .bind (blind_push _) fun _ ↦ hdone
  | arrayStore =>
    refine .bind (blind_globalArrayRange arg1 arg2) fun range ↦ .bind blind_popInt fun _ ↦
      .bind blind_popInt fun _ ↦ .bind (blind_arrayIndex _ _) fun _ ↦
      .bind (blind_readGlobal _) fun value ↦ ?_
    cases value with
    | int value => exact .bind (blind_writeGlobal _ _) fun _ ↦ hdone
    | arrayRef id => exact .bind (blind_storeElement _ _ _) fun _ ↦ hdone
  | localArrayLoad =>
    refine .bind (blind_currentLocalSlot arg1) fun _ ↦ .bind (blind_arraySize arg2) fun _ ↦
      .bind blind_popInt fun _ ↦ .bind (blind_arrayIndex _ _) fun _ ↦
      .bind blind_currentFrame fun frame ↦ ?_
    split
    · exact .bind (blind_loadElement _ _) fun _ ↦ .bind (blind_push _) fun _ ↦ hdone
    · exact .bind (.pure _) fun _ ↦ .bind (blind_push _) fun _ ↦ hdone
    · exact .bind (blind_trap _ _) fun _ ↦ .bind (blind_push _) fun _ ↦ hdone
  | localArrayStore =>
    refine .bind (blind_currentLocalSlot arg1) fun _ ↦ .bind (blind_arraySize arg2) fun _ ↦
      .bind blind_popInt fun _ ↦ .bind blind_popInt fun _ ↦ .bind (blind_arrayIndex _ _) fun _ ↦
      .bind blind_currentFrame fun frame ↦ ?_
    split
    · exact .bind (blind_storeElement _ _ _) fun _ ↦ hdone
    · exact .bind (blind_trap _ _) fun _ ↦ hdone
  | arrayNew | allocArray => exact blind_alloc arg1
  | print => exact .bind blind_popInt fun _ ↦ .bind (.modify fun _ ↦ rfl) fun _ ↦ hdone
  | pop => exact .bind blind_pop fun _ ↦ hdone
  | dup =>
    refine .get_bind (fun _ ↦ rfl) fun vm ↦ ?_
    split
    · exact blind_trap _ _
    · exact .bind (blind_push _) fun _ ↦ hdone
  | halt => exact .bind (.modify fun _ ↦ rfl) fun _ ↦ .pure _

end

/-- An instruction changes neither cycles nor the trace. -/
structure Kept (vm vm' : GcVm) : Prop where
  cycles : vm'.cycles = vm.cycles
  maxCycles : vm'.maxCycles = vm.maxCycles
  trace : vm'.trace = vm.trace

theorem kept_of_retune {vm vm' : GcVm}
    (h : retune vm.cycles vm.maxCycles vm.trace vm' = vm') : Kept vm vm' :=
  ⟨(congrArg GcVm.cycles h).symm, (congrArg GcVm.maxCycles h).symm, (congrArg GcVm.trace h).symm⟩

theorem post_kept (program : CompiledProgram) (opcode : Opcode) (arg1 arg2 : Int32) (vm : GcVm) :
    ((executeInstruction program opcode arg1 arg2).run vm).Post (fun _ vm' ↦ Kept vm vm')
      fun _ vm' ↦ Kept vm vm' :=
  ((blind_executeInstruction opcode arg1 arg2).post (s := vm) rfl).mono
    (fun _ _ ↦ kept_of_retune) fun _ _ ↦ kept_of_retune

theorem kept_allocArray (vm : GcVm) (size : Nat) : Kept vm (vm.allocArray size).2 :=
  kept_of_retune (congrArg Prod.snd (allocArray_retune vm size)).symm

/-! ### Runs -/

/-- The machine without a trace. -/
def untraced (vm : GcVm) : GcVm := { vm with trace := none }

/-- What becomes of the outcome of a step. -/
def untracedStep : GcVm ⊕ (GcVmHalt × GcVm) → GcVm ⊕ (GcVmHalt × GcVm)
  | .inl vm => .inl vm.untraced
  | .inr (halt, vm) => .inr (halt, vm.untraced)

variable {vm : GcVm}

theorem run_untraced (opcode : Opcode) (arg1 arg2 : Int32) :
    (executeInstruction program opcode arg1 arg2).run
        { vm.untraced with cycles := vm.cycles + 1 } =
      ((executeInstruction program opcode arg1 arg2).run
        { vm with cycles := vm.cycles + 1 }).mapState untraced := by
  have hblind := @blind_executeInstruction program (vm.cycles + 1) vm.maxCycles none opcode arg1
    arg2 { vm with cycles := vm.cycles + 1 }
  have hkept := post_kept program opcode arg1 arg2 { vm with cycles := vm.cycles + 1 }
  refine hblind.trans ?_
  cases hrun : (executeInstruction program opcode arg1 arg2).run
      { vm with cycles := vm.cycles + 1 } with
  | ok advance after =>
    rw [hrun] at hkept
    have hcycles : after.cycles = vm.cycles + 1 := hkept.cycles
    have hmax : after.maxCycles = vm.maxCycles := hkept.maxCycles
    rw [EStateM.Result.mapState, EStateM.Result.mapState, retune, untraced, ← hcycles, ← hmax]
  | error e after =>
    rw [hrun] at hkept
    have hcycles : after.cycles = vm.cycles + 1 := hkept.cycles
    have hmax : after.maxCycles = vm.maxCycles := hkept.maxCycles
    rw [EStateM.Result.mapState, EStateM.Result.mapState, retune, untraced, ← hcycles, ← hmax]

theorem afterInstruction_untraced (before after : GcVm) (instr : Instruction) (advance : Bool) :
    afterInstruction before.untraced instr after.untraced advance =
      untracedStep (afterInstruction before instr after advance) := by
  by_cases hframes : after.callStack = []
  all_goals cases advance <;>
    simp [afterInstruction, untracedStep, untraced, recordTrace, hframes]

/-- The trace does not matter to a step. -/
theorem step_untraced (vm : GcVm) :
    step program vm.untraced = untracedStep (step program vm) := by
  by_cases hlimit : vm.maxCycles > 0 ∧ vm.cycles ≥ vm.maxCycles
  · refine (if_pos hlimit).trans (Eq.trans ?_ (congrArg untracedStep (if_pos hlimit)).symm)
    rfl
  refine (if_neg hlimit).trans (Eq.trans ?_ (congrArg untracedStep (if_neg hlimit)).symm)
  have hfetch : program.instructions[vm.untraced.pc]? = program.instructions[vm.pc]? := rfl
  rw [hfetch]
  cases program.instructions[vm.pc]? with
  | none => rfl
  | some instr =>
    dsimp only
    rw [show vm.untraced.cycles = vm.cycles from rfl, run_untraced]
    cases (executeInstruction program instr.opcode instr.arg1 instr.arg2).run
        { vm with cycles := vm.cycles + 1 } with
    | ok advance after => exact afterInstruction_untraced vm after instr advance
    | error e after =>
      cases e with
      | trap code message => rfl
      | panic => rfl

theorem runs_untraced (fuel : Nat) (vm : GcVm) :
    (Stepping.run (step program) fuel vm.untraced).map Prod.fst =
      (Stepping.run (step program) fuel vm).map Prod.fst := by
  induction fuel generalizing vm with
  | zero => rfl
  | succ fuel ih =>
    have hstep := @step_untraced program vm
    cases h : step program vm with
    | inl vm' =>
      rw [h] at hstep
      rw [Stepping.run_of_next h, Stepping.run_of_next hstep]
      exact ih vm'
    | inr r =>
      rw [h] at hstep
      rw [Stepping.run_of_end h, Stepping.run_of_end hstep]
      rfl

theorem initGlobalArrays_untraced (infos : List GlobalInfo) (vm : GcVm) :
    initGlobalArrays infos vm.untraced = (initGlobalArrays infos vm).map untraced := by
  induction infos generalizing vm with
  | nil => rfl
  | cons info infos ih =>
    rw [initGlobalArrays, initGlobalArrays]
    split
    · have halloc : vm.untraced.allocArray info.arraySize =
          ((vm.allocArray info.arraySize).1, (vm.allocArray info.arraySize).2.untraced) := by
        have hkept := kept_allocArray vm info.arraySize
        refine (@allocArray_retune vm.cycles vm.maxCycles none vm info.arraySize).trans ?_
        rw [retune, untraced, ← hkept.cycles, ← hkept.maxCycles]
      rw [halloc]
      dsimp only
      change (if info.slot < (vm.allocArray info.arraySize).2.globals.length then _ else _) = _
      split
      · exact ih { (vm.allocArray info.arraySize).2 with
          globals := (vm.allocArray info.arraySize).2.globals.set info.slot
            (.arrayRef (vm.allocArray info.arraySize).1) }
      · rfl
    · exact ih vm

theorem kept_initGlobalArrays {infos : List GlobalInfo} {vm vm' : GcVm}
    (h : initGlobalArrays infos vm = some vm') : Kept vm vm' := by
  induction infos generalizing vm with
  | nil =>
    cases h
    exact ⟨rfl, rfl, rfl⟩
  | cons info infos ih =>
    rw [initGlobalArrays] at h
    split at h
    · dsimp only at h
      split at h
      · obtain ⟨hcycles, hmax, htrace⟩ := kept_allocArray vm info.arraySize
        obtain ⟨hcycles', hmax', htrace'⟩ := ih h
        exact ⟨hcycles'.trans hcycles, hmax'.trans hmax, htrace'.trans htrace⟩
      · cases h
    · exact ih h

theorem start_init (program : CompiledProgram) (maxCycles : Nat)
    (trace : Option (List TraceEvent)) : start program (init maxCycles none) =
      match start program (init maxCycles trace) with
      | .inl vm => .inl vm.untraced
      | .inr result => .inr result := by
  rw [start, start]
  cases program.validate with
  | error e => rfl
  | ok _ =>
    dsimp only
    cases program.functions.lookup program.mainFuncId with
    | none => rfl
    | some main =>
      dsimp only
      rw [show init maxCycles none = (init maxCycles trace).untraced from rfl,
        initGlobalArrays_untraced]
      cases initGlobalArrays program.globals.values (init maxCycles trace) <;> rfl

/-- **Tracing changes nothing.** -/
theorem run_init_none (program : CompiledProgram) (maxCycles : Nat)
    (trace : Option (List TraceEvent)) (fuel : Nat) :
    run program fuel (init maxCycles none) = run program fuel (init maxCycles trace) := by
  rw [run, run, runFull, runFull, start_init program maxCycles trace]
  cases start program (init maxCycles trace) with
  | inr result => rfl
  | inl vm => exact runs_untraced fuel vm

end GcVm

end MiniLang
