import MiniLang.Machine.Retuned
import MiniLang.Optimizer.DeadCode

/-!
# Runs of compacted programs

A compacted program is run like the program itself: the machines stay in the same state, up to the
addresses in the program counter and in the frames, which are always addresses of reachable
instructions.

## The relation

`move` sends a state to the state in moved code: values, counts, output and trace stay, the program
counter and the return addresses go to the new positions. It is a function, so that the simulation
is an equation between two steps and needs no invariant of its own beyond `InCode`: control is at a
reachable instruction, and each frame returns to one.

## The step

Operations on values do not see addresses, and commute with `move` by the rules for changes they do
not see. What is left is control. An instruction that advances goes to the next address, which is
the next position too, because its successor is reachable and no instruction between the two is. A
jump goes to a remapped target; a call pushes the position of its next instruction and enters at a
remapped entry; a return pops.

A trap reports the address it occurred at, which is why the results of runs are compared at the new
position.
-/

namespace MiniLang

open EStateM Verifier Optimizer

namespace Vm

variable {program : CompiledProgram} {vm vm' : Vm} {instr instr' : Instruction}
  {position : Nat → Nat}

/-! ## Where an instruction goes -/

/-- What an instruction at `pc` does to the frames and the program counter, when it ends normally
and says whether the program counter still has to advance. -/
inductive Goes (program : CompiledProgram) (instr : Instruction) (pc : Nat) :
    List CallFrame → Bool → List CallFrame → Nat → Prop
  | advance {frames : List CallFrame} : pc + 1 ∈ successors pc instr →
    Goes program instr pc frames true frames pc
  | jump {frames : List CallFrame} {target : Nat} : target ∈ successors pc instr →
    Goes program instr pc frames false frames target
  | call {frames : List CallFrame} {base id : Nat} {func : FunctionInfo} :
    pc + 1 ∈ successors pc instr → program.functions.lookup id = some func →
    Goes program instr pc frames false (⟨pc + 1, base, id⟩ :: frames) func.entryPc
  | ret {frame : CallFrame} {frames : List CallFrame} : frame.returnPc ≠ usizeMax →
    Goes program instr pc (frame :: frames) false frames frame.returnPc
  /-- The run ends here. -/
  | last {frames frames' : List CallFrame} : frames' ⊆ frames →
    Goes program instr pc frames false frames' pc

theorem Goes.of_advance {pc pc' : Nat} {frames frames' : List CallFrame}
    (h : Goes program instr pc frames true frames' pc') :
    pc' = pc ∧ pc + 1 ∈ successors pc instr := by
  cases h with
  | advance hmem => exact ⟨rfl, hmem⟩

theorem successors_of_plain {opcode : Opcode} {arg1 arg2 : Int32} (pc : Nat)
    (h : opcode ∉ [.jump, .jumpIfFalse, .jumpIfTrue, .call, .return, .halt]) :
    successors pc ⟨opcode, arg1, arg2⟩ = [pc + 1] := by
  cases opcode with
  | jump | jumpIfFalse | jumpIfTrue | call | «return» | halt => simp at h
  | _ => rfl

theorem post_jump {frames : List CallFrame} {pc target : Nat} {instr : Instruction}
    (hmem : target ∈ successors pc instr) (hvm : (vm.callStack, vm.pc) = (frames, pc)) :
    ((do
      modify fun vm : Vm ↦ { vm with pc := target }
      return false : VmM Bool).run vm).Post
      (fun advance vm' ↦ Goes program instr pc frames advance vm'.callStack vm'.pc)
      fun _ _ ↦ True := by
  obtain ⟨hframes, -⟩ := Prod.mk.inj hvm
  subst hframes
  exact .jump hmem

theorem post_goes (program : CompiledProgram) (instr : Instruction) (vm : Vm) :
    ((executeInstruction program instr.opcode instr.arg1 instr.arg2).run vm).Post
      (fun advance vm' ↦ Goes program instr vm.pc vm.callStack advance vm'.callStack vm'.pc)
      fun _ _ ↦ True := by
  obtain ⟨opcode, arg1, arg2⟩ := instr
  by_cases hop : opcode ∉ [.jump, .jumpIfFalse, .jumpIfTrue, .call, .return, .halt]
  · have hkeeps := @Leaves.executeInstruction program _ _ ignores_control opcode arg1 arg2 hop vm
    refine hkeeps.mono (fun advance vm' hvm' ↦ ?_) fun _ _ _ ↦ trivial
    obtain ⟨hframes, hpc⟩ := Prod.mk.inj hvm'
    rw [hframes, hpc]
    cases advance with
    | true => exact .advance (by rw [successors_of_plain vm.pc hop]; exact List.mem_cons_self)
    | false => exact .last (List.Subset.refl _)
  cases opcode with
  | jump => exact .jump List.mem_cons_self
  | jumpIfFalse | jumpIfTrue =>
    have hpop := (Leaves.pop (g := fun vm ↦ (vm.callStack, vm.pc)) ignores_control.stack).triple
      (vm.callStack, vm.pc)
    refine EStateM.Triple.bind hpop (fun cond vm₁ hvm₁ ↦ ?_) vm rfl
    split
    · exact post_jump List.mem_cons_self hvm₁
    · obtain ⟨hframes, hpc⟩ := Prod.mk.inj hvm₁
      change Goes program _ vm.pc vm.callStack true vm₁.callStack vm₁.pc
      rw [hframes, hpc]
      exact .advance (List.mem_cons_of_mem _ List.mem_cons_self)
  | call =>
    refine (post_call program arg1 arg2 vm).mono (fun advance vm' hvm' ↦ ?_) fun _ _ _ ↦ trivial
    obtain ⟨rfl, ⟨func, hfunc, hpc⟩, base, hframes⟩ := hvm'
    rw [hframes, hpc]
    exact .call List.mem_cons_self hfunc
  | «return» =>
    refine (post_ret vm).mono (fun advance vm' hvm' ↦ ?_) fun _ _ _ ↦ trivial
    obtain ⟨rfl, frame, hframes, hpc⟩ := hvm'
    rw [hframes, hpc]
    split
    · next hback => exact .ret hback
    · exact .last (List.subset_cons_self _ _)
  | halt =>
    have hpush := (Leaves.push (g := fun vm ↦ (vm.callStack, vm.pc)) ignores_control.stack
      (vm.stack.head?.getD 0)).triple ([], vm.pc)
    refine EStateM.Triple.bind hpush (fun _ ↦ EStateM.Triple.pure fun vm' hvm' ↦ ?_)
      { vm with stack := vm.stack.tail, callStack := [] } rfl
    obtain ⟨hframes, hpc⟩ := Prod.mk.inj hvm'
    rw [hframes, hpc]
    exact .last (List.nil_subset _)
  | _ => simp at hop

/-! ## Moved code -/

/-- A frame that returns to the new position of an instruction. -/
def moveFrame (position : Nat → Nat) (frame : CallFrame) : CallFrame :=
  { frame with returnPc := if frame.returnPc = usizeMax then usizeMax else position frame.returnPc }

/-- The machine in the same state in moved code. -/
def move (position : Nat → Nat) (vm : Vm) : Vm :=
  { vm with pc := position vm.pc, callStack := vm.callStack.map (moveFrame position) }

theorem unseen_move : Unseen (move position) :=
  ⟨fun _ ↦ rfl, fun _ ↦ rfl, fun _ ↦ rfl, fun _ ↦ rfl, fun _ _ ↦ rfl, fun _ _ ↦ rfl, fun _ _ ↦ rfl,
    fun _ _ ↦ rfl⟩

theorem frameSlots_move (vm : Vm) :
    (move position vm).callStack.map frameSlots = vm.callStack.map frameSlots :=
  List.map_map.trans rfl

/-- The machine is at a reachable instruction and returns to reachable ones. -/
structure InCode (program : CompiledProgram) (vm : Vm) : Prop where
  pc : Reachable program.instructions program.functions vm.pc
  returns : ∀ frame ∈ vm.callStack, frame.returnPc ≠ usizeMax →
    Reachable program.instructions program.functions frame.returnPc

variable {newInstructions : List Instruction} {newFunctions : HashMap Nat FunctionInfo}
  {traps : List TrapCode} {pc : Nat}

theorem lt_usizeMax (hverified : Verified program traps)
    (hpc : Reachable program.instructions program.functions pc) : pc < usizeMax := by
  have hlt := hpc.1
  have hcount := hverified.count
  have hlimit : maxInstructions < usizeMax := by decide
  omega

/-- **Instructions in moved code.** -/
theorem run_move (hverified : Verified program traps)
    (h : Compacts program position newInstructions newFunctions) (hvm : InCode program vm)
    (hinstr : program.instructions[vm.pc]? = some instr) (hmoves : Moves position instr instr') :
    (executeInstruction (withCode program (newInstructions, newFunctions)) instr'.opcode instr'.arg1
        instr'.arg2).run (move position vm) =
      ((executeInstruction program instr.opcode instr.arg1 instr.arg2).run vm).mapState
        (move position) := by
  have hlookup : Reentered (fun func ↦ position func.entryPc) program
      (withCode program (newInstructions, newFunctions)) := h.entries
  rw [hmoves.opcode, hmoves.arg2]
  -- a jump goes to the position that its target has moved to
  by_cases hjump : instr.opcode ∈ [.jump, .jumpIfFalse, .jumpIfTrue]
  · refine unseen_move.executeInstruction_jump instr.arg2 (fun vm ↦ ?_) hjump vm
    rw [(hmoves.target hjump).2]
    rfl
  rw [hmoves.arg1 hjump]
  by_cases hop : instr.opcode ∉ [.jump, .jumpIfFalse, .jumpIfTrue, .call, .return, .halt]
  · exact unseen_move.executeInstruction instr.arg1 instr.arg2
      (commutes_currentLocalSlot (u := move position) hlookup frameSlots_move instr.arg1) hop vm
  -- what is left are the instructions that change frames
  obtain ⟨opcode, arg1, arg2⟩ := instr
  cases opcode with
  | jump | jumpIfFalse | jumpIfTrue => simp at hjump
  | call =>
    refine unseen_move.run_call hlookup frameSlots_move (fun vm' base id func _ hpc _ ↦ ?_)
      arg1 arg2
    -- the return position has moved with the instruction behind the call
    have hnext := hvm.pc.flowsTo hverified ⟨_, hinstr, List.mem_cons_self⟩
    have hframe : moveFrame position ⟨vm'.pc + 1, base, id⟩ = ⟨position vm'.pc + 1, base, id⟩ := by
      have hsucc := h.position_succ hvm.pc hnext
      rw [hpc, moveFrame]
      simp only [(lt_usizeMax hverified hnext).ne, if_false, hsucc]
    rw [move, move]
    simp only [List.map_cons, hframe]
  | «return» =>
    refine unseen_move.run_ret (fun vm' frame frames hframes hframe ↦ ?_) fun vm' hframes hnil ↦ ?_
    · refine ⟨moveFrame position frame, frames.map (moveFrame position), ?_, rfl, ?_, ?_⟩
      · rw [move, hframes, hframe, List.map_cons]
      · by_cases hlast : frame.returnPc = usizeMax
        · rw [moveFrame, if_pos hlast, hlast]
        · have hback := hvm.returns frame (hframe ▸ List.mem_cons_self) hlast
          have hlt := Nat.lt_of_le_of_lt (h.position_le hback) (lt_usizeMax hverified hback)
          rw [moveFrame, if_neg hlast]
          exact iff_of_false hlt.ne hlast
      · intro hback vm''
        rw [moveFrame, if_neg hback]
        rfl
    · rw [move, hframes, hnil]
      rfl
  | halt => exact unseen_move.executeInstruction_halt arg1 arg2 (fun _ _ ↦ rfl) vm
  | _ => simp at hop

/-! ## Steps -/

/-- How a run in moved code ends. -/
def moveHalt (position : Nat → Nat) : VmHalt → VmHalt
  | .result result => .result { result with pc := position result.pc }
  | .panic => .panic

/-- What becomes of the outcome of a step. -/
def moveStep (position : Nat → Nat) : Vm ⊕ (VmHalt × Vm) → Vm ⊕ (VmHalt × Vm)
  | .inl vm => .inl (move position vm)
  | .inr (halt, vm) => .inr (moveHalt position halt, move position vm)

theorem makeTrapResult_move (vm : Vm) (code : TrapCode) (message : String) :
    (move position vm).makeTrapResult code message =
      { vm.makeTrapResult code message with pc := position vm.pc } := by
  simp only [makeTrapResult, move, List.length_map]

theorem afterInstruction_move {before after : Vm} {advance : Bool} (htrace : after.trace = none)
    (hadvance : advance = true → position (after.pc + 1) = position after.pc + 1) :
    afterInstruction (move position before) instr' (move position after) advance =
      moveStep position (afterInstruction before instr after advance) := by
  have hmove : (if advance then { move position after with pc := (move position after).pc + 1 }
      else move position after) =
      move position (if advance then { after with pc := after.pc + 1 } else after) := by
    cases advance with
    | false => rfl
    | true => exact congrArg (fun pc ↦ { move position after with pc := pc }) (hadvance rfl).symm
  have htrace' : (if advance then { after with pc := after.pc + 1 } else after).trace = none := by
    split <;> exact htrace
  rw [afterInstruction, afterInstruction, hmove]
  generalize (if advance then { after with pc := after.pc + 1 } else after) = next at htrace' ⊢
  have hmoved : (move position next).trace = none := htrace'
  simp only [recordTrace_eq _ _ _ htrace', recordTrace_eq _ _ _ hmoved]
  by_cases hframes : next.callStack = []
  · have hframes' : (move position next).callStack = [] := by rw [move, hframes, List.map_nil]
    rw [if_pos hframes, if_pos hframes', hframes, hframes']
    rfl
  · have hframes' : (move position next).callStack ≠ [] :=
      fun h ↦ hframes (List.map_eq_nil_iff.mp h)
    rw [if_neg hframes, if_neg hframes']
    rfl

/-- **The step lemma.** -/
theorem step_move (hverified : Verified program traps)
    (h : Compacts program position newInstructions newFunctions) (hvm : InCode program vm)
    (htrace : vm.trace = none) :
    step (withCode program (newInstructions, newFunctions)) (move position vm) =
      moveStep position (step program vm) := by
  obtain ⟨instr, hinstr⟩ : ∃ instr, program.instructions[vm.pc]? = some instr :=
    ⟨_, List.getElem?_eq_getElem hvm.pc.1⟩
  -- a reachable instruction is kept
  obtain ⟨instr', hinstr', hmoves⟩ := h.kept vm.pc instr hvm.pc hinstr
  have hfetch : (withCode program (newInstructions, newFunctions)).instructions[
      (move position vm).pc]? = some instr' := hinstr'
  by_cases hlimit : AtLimit vm
  · have hlimit' : AtLimit (move position vm) := hlimit
    refine (if_pos hlimit').trans (Eq.trans ?_ (congrArg (moveStep position) (if_pos hlimit)).symm)
    rw [makeTrapResult_move]
    rfl
  refine (if_neg (show ¬AtLimit (move position vm) from hlimit)).trans
    (Eq.trans ?_ (congrArg (moveStep position) (if_neg hlimit)).symm)
  rw [hfetch, hinstr]
  dsimp only
  have hvm' : InCode program { vm with cycles := vm.cycles + 1 } := ⟨hvm.pc, hvm.returns⟩
  have hrun := run_move hverified h hvm' hinstr hmoves
  have hkept := post_kept program instr.opcode instr.arg1 instr.arg2
    { vm with cycles := vm.cycles + 1 }
  have hgoes := post_goes program instr { vm with cycles := vm.cycles + 1 }
  rw [show { move position vm with cycles := (move position vm).cycles + 1 } =
    move position { vm with cycles := vm.cycles + 1 } from rfl, hrun]
  cases hresult : (executeInstruction program instr.opcode instr.arg1 instr.arg2).run
      { vm with cycles := vm.cycles + 1 } with
  | ok advance after =>
    rw [hresult] at hkept hgoes
    refine afterInstruction_move (hkept.trace.trans htrace) fun hadvance ↦ ?_
    subst hadvance
    obtain ⟨hpc, hmem⟩ := Goes.of_advance hgoes
    rw [hpc]
    exact h.position_succ hvm.pc (hvm.pc.flowsTo hverified ⟨instr, hinstr, hmem⟩)
  | error e after =>
    rw [hresult] at hkept
    cases e with
    | trap code message =>
      have htrace' : after.trace = none := hkept.trace.trans htrace
      have hmoved : (move position after).trace = none := htrace'
      dsimp only [EStateM.Result.mapState]
      rw [makeTrapResult_move, recordTrace_eq _ _ _ hmoved, recordTrace_eq _ _ _ htrace']
      rfl
    | panic => rfl

theorem InCode.step (hverified : Verified program traps) (h : InCode program vm)
    (hstep : step program vm = .inl vm') : InCode program vm' := by
  obtain ⟨instr, advance, after, -, hinstr, hrun, -, rfl⟩ := step_inl hstep
  have hgoes := post_goes program instr { vm with cycles := vm.cycles + 1 }
  rw [hrun] at hgoes
  have hflow {pc : Nat} (hmem : pc ∈ successors vm.pc instr) :
      Reachable program.instructions program.functions pc :=
    h.pc.flowsTo hverified ⟨instr, hinstr, hmem⟩
  have hgoes : Goes program instr vm.pc vm.callStack advance after.callStack after.pc := hgoes
  have hreturns := h.returns
  have hnext : (advance = true → InCode program { after with pc := after.pc + 1 }) ∧
      (advance = false → InCode program after) := by
    obtain ⟨_, _, _, frames', pc', _, _, _, _⟩ := after
    obtain ⟨_, _, _, frames, pc, _, _, _, _⟩ := vm
    dsimp only at hgoes hflow hreturns
    cases hgoes with
    | advance hmem => exact ⟨fun _ ↦ ⟨hflow hmem, hreturns⟩, fun h ↦ by cases h⟩
    | jump hmem => exact ⟨fun h ↦ (by cases h), fun _ ↦ ⟨hflow hmem, hreturns⟩⟩
    | call hmem hfunc =>
      refine ⟨fun h ↦ (by cases h), fun _ ↦ ⟨Reachable.entry hverified hfunc, ?_⟩⟩
      exact List.forall_mem_cons.mpr ⟨fun _ ↦ hflow hmem, hreturns⟩
    | ret hback =>
      refine ⟨fun h ↦ (by cases h), fun _ ↦ ?_⟩
      obtain ⟨hframe, hframes⟩ := List.forall_mem_cons.mp hreturns
      exact ⟨hframe hback, hframes⟩
    | last hsubset =>
      exact ⟨fun h ↦ (by cases h), fun _ ↦ ⟨h.pc, fun frame hmem ↦ hreturns frame (hsubset hmem)⟩⟩
  cases advance with
  | true => exact ⟨(hnext.1 rfl).pc, (hnext.1 rfl).returns⟩
  | false => exact ⟨(hnext.2 rfl).pc, (hnext.2 rfl).returns⟩

theorem trace_of_step (htrace : vm.trace = none) (hstep : step program vm = .inl vm') :
    vm'.trace = none := by
  obtain ⟨instr, advance, after, -, -, hrun, -, rfl⟩ := step_inl hstep
  have hkept := post_kept program instr.opcode instr.arg1 instr.arg2
    { vm with cycles := vm.cycles + 1 }
  rw [hrun] at hkept
  have hafter : after.trace = none := hkept.trace.trans htrace
  cases advance with
  | true => exact congrArg (Option.map _) hafter
  | false => exact congrArg (Option.map _) hafter

/-! ## Runs -/

theorem run_move_halt (hverified : Verified program traps)
    (h : Compacts program position newInstructions newFunctions) (hvm : InCode program vm)
    (htrace : vm.trace = none) (fuel : Nat) :
    (Stepping.run (step (withCode program (newInstructions, newFunctions))) fuel
        (move position vm)).map Prod.fst =
      ((Stepping.run (step program) fuel vm).map Prod.fst).map (moveHalt position) := by
  induction fuel generalizing vm with
  | zero => rfl
  | succ fuel ih =>
    have hmove := step_move hverified h hvm htrace
    cases hstep : step program vm with
    | inl vm' =>
      rw [hstep] at hmove
      rw [Stepping.run_of_next hstep, Stepping.run_of_next hmove]
      exact ih (hvm.step hverified hstep) (trace_of_step htrace hstep)
    | inr r =>
      rw [hstep] at hmove
      rw [Stepping.run_of_end hstep, Stepping.run_of_end hmove]
      rfl

/-- The machine starts a compacted program where it would start the program. -/
theorem start_compacted (hverified : Verified program traps)
    (h : Compacts program position newInstructions newFunctions) (maxCycles : Nat) :
    ∃ vm, start program (init maxCycles none) = .inl vm ∧ InCode program vm ∧ vm.trace = none ∧
      start (withCode program (newInstructions, newFunctions)) (init maxCycles none) =
        .inl (move position vm) := by
  obtain ⟨main, hmain⟩ := hverified.main
  have hslots : ∀ id info, newFunctions.lookup id = some info → SlotsOk info := by
    intro id info hinfo
    rw [h.entries] at hinfo
    obtain ⟨func, hfunc, rfl⟩ := Option.map_eq_some_iff.mp hinfo
    exact hverified.slots id func hfunc
  have hvalid : (withCode program (newInstructions, newFunctions)).validate = .ok () :=
    validate_eq_ok (h.length_le.trans hverified.count) hslots hverified.globals
  have hmain' : (withCode program (newInstructions, newFunctions)).functions.lookup
      program.mainFuncId = some { main with entryPc := position main.entryPc } :=
    (h.entries program.mainFuncId).trans (by rw [hmain]; rfl)
  have hlocals := Nat.not_lt.mpr (hverified.slots _ _ hmain).2
  refine ⟨{ init maxCycles none with
    pc := main.entryPc
    callStack := [⟨usizeMax, 0, main.id⟩] }, ?_, ⟨Reachable.entry hverified hmain, ?_⟩, rfl, ?_⟩
  · rw [start, validate_of_verified hverified, hmain]
    exact if_neg hlocals
  · intro frame hmem hback
    rw [List.mem_singleton.mp hmem] at hback
    exact absurd rfl hback
  · rw [start, hvalid]
    dsimp only
    rw [show (withCode program (newInstructions, newFunctions)).mainFuncId = program.mainFuncId
      from rfl, hmain']
    exact if_neg hlocals

/-- **Runs of compacted programs.** They end like those of the program, at the new position. -/
theorem run_compacted (hverified : Verified program traps)
    (h : Compacts program position newInstructions newFunctions) (maxCycles fuel : Nat) :
    run (withCode program (newInstructions, newFunctions)) fuel (init maxCycles none) =
      (run program fuel (init maxCycles none)).map (moveHalt position) := by
  obtain ⟨vm, hstart, hvm, htrace, hstart'⟩ := start_compacted hverified h maxCycles
  rw [run, run, runFull, runFull, hstart, hstart']
  exact run_move_halt hverified h hvm htrace fuel

/-- **Dead code elimination is exact.** -/
theorem deadCodeElimination_exact (hvalid : (verify program).valid = true)
    (stats : OptimizationStats) : ∃ position,
    Compacts program position
      (deadCodeElimination stats program.instructions program.functions).1.1
      (deadCodeElimination stats program.instructions program.functions).1.2 ∧
    ∀ maxCycles trace fuel,
      run (withCode program (deadCodeElimination stats program.instructions program.functions).1)
        fuel (init maxCycles trace) =
      (run program fuel (init maxCycles trace)).map (moveHalt position) := by
  have hverified := verified_of_valid hvalid
  obtain ⟨position, hcompacts⟩ := exists_compacts hverified stats
  refine ⟨position, hcompacts, fun maxCycles trace fuel ↦ ?_⟩
  rw [← run_init_none, ← run_init_none program]
  exact run_compacted hverified hcompacts maxCycles fuel

/-- `main` jumps over an instruction. -/
def skipsPop : CompiledProgram where
  instructions := [⟨.jump, 2, 0⟩, ⟨.pop, 0, 0⟩, ⟨.loadConst, 7, 0⟩, ⟨.return, 0, 0⟩]
  functions := AList.singleton 0 ⟨"main", 0, 0, 0, 0⟩
  globals := ∅
  mainFuncId := 0
  constants := []

theorem valid_skipsPop : (verify skipsPop).valid = true := by
  rw [verify, functionRanges_of_sorted (by decide)]
  decide +kernel

example : (deadCodeElimination {} skipsPop.instructions skipsPop.functions).1.1 =
    [⟨.jump, 1, 0⟩, ⟨.loadConst, 7, 0⟩, ⟨.return, 0, 0⟩] := by decide +kernel

theorem deadCodeElimination_exact_skipsPop : ∃ position,
    Compacts skipsPop position
      (deadCodeElimination {} skipsPop.instructions skipsPop.functions).1.1
      (deadCodeElimination {} skipsPop.instructions skipsPop.functions).1.2 ∧
    ∀ maxCycles trace fuel,
      run (withCode skipsPop (deadCodeElimination {} skipsPop.instructions skipsPop.functions).1)
        fuel (init maxCycles trace) =
      (run skipsPop fuel (init maxCycles trace)).map (moveHalt position) :=
  deadCodeElimination_exact valid_skipsPop {}

end Vm

end MiniLang
