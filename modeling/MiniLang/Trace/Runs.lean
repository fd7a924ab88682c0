import MiniLang.Machine.GcRetuned
import MiniLang.Machine.Retuned
import MiniLang.Trace.Loops

/-!
# The traces of both machines

Both machines run the loop of `Loop`, so their traces are well-formed and tell how a run ends, and a
run with a trace is the same as one without.

What is particular to a machine is how it starts. The reference machine ends its preflight in a
failed result or goes on with the trace it was given; the collecting one also allocates the global
arrays, which neither counts a cycle nor touches the trace. Where the preflight fails the trace is
empty and no instruction has been executed, so that there is nothing to tell.
-/

namespace MiniLang

/-! ## The reference machine -/

namespace Vm

variable {program : CompiledProgram} {vm : Vm} {halt : VmHalt}

/-- What the next event tells of the state. -/
def snapshot (vm : Vm) : Snapshot := ⟨vm.cycles, vm.pc, vm.stack.reverse, vm.callStack.length⟩

/-- The instruction executed in the state traps. -/
def InstructionTraps (program : CompiledProgram) (vm : Vm) (code : TrapCode) (message : String) :
    Prop :=
  ¬AtLimit vm ∧ ∃ instr after, program.instructions[vm.pc]? = some instr ∧
    (executeInstruction program instr.opcode instr.arg1 instr.arg2).run
      { vm with cycles := vm.cycles + 1 } = .error (.trap code message) after

/-- How a run has ended, unless the program has crashed. -/
def verdict : VmHalt → Option TraceOutcome
  | .result result =>
    some (if result.success then .exit else .trap result.trapCode result.trapMessage)
  | .panic => none

theorem kept_ticks {before after : Vm} (h : Kept { before with cycles := before.cycles + 1 } after) :
    after.snapshot.cycle = before.snapshot.cycle + 1 ∧ after.trace = before.trace :=
  ⟨h.cycles, h.trace⟩

/-- The parts of the reference machine. -/
def loop (program : CompiledProgram) : Loop Vm VmHalt where
  limited vm := vm.maxCycles > 0 ∧ vm.cycles ≥ vm.maxCycles
  fetch vm := program.instructions[vm.pc]?
  execute instr vm := (executeInstruction program instr.opcode instr.arg1 instr.arg2).run
    { vm with cycles := vm.cycles + 1 }
  advance vm moves := if moves then { vm with pc := vm.pc + 1 } else vm
  idle vm := vm.callStack = []
  snapshot := snapshot
  trace := Vm.trace
  record vm event := { vm with trace := vm.trace.map (· ++ [event]) }
  limit vm := .result (vm.makeTrapResult .cycleLimit
    s!"Cycle limit exceeded ({vm.maxCycles} cycles)")
  lost vm := .result (vm.makeTrapResult .invalidInstruction s!"PC out of bounds: {vm.pc}")
  exited vm := (.result {
    success := true
    returnValue := vm.stack.head?.getD 0
    trapCode := .none
    trapMessage := ""
    cycles := vm.cycles
    output := vm.output
    pc := vm.pc
    stackDepth := vm.stack.tail.length
    frameDepth := vm.callStack.length }, { vm with stack := vm.stack.tail })
  trapped code message vm := .result (vm.makeTrapResult code message)
  crashed := .panic
  verdict := verdict
  execute_ticks instr vm :=
    (post_kept program instr.opcode instr.arg1 instr.arg2 { vm with cycles := vm.cycles + 1 }).mono
      (fun _ _ ↦ kept_ticks) fun _ _ ↦ kept_ticks
  cycle_advance _ moves := by cases moves <;> rfl
  trace_advance _ moves := by cases moves <;> rfl
  snapshot_record _ _ := rfl
  trace_record _ _ := rfl
  trace_exited _ := rfl
  verdict_limit _ := nofun
  verdict_lost _ := nofun
  verdict_exited _ := rfl
  verdict_trapped _ _ _ := rfl
  verdict_crashed := nofun

/-- The loop in `run` is the loop over these parts. -/
theorem step_eq_loop (program : CompiledProgram) : step program = (loop program).step := by
  funext vm
  rw [step, Loop.step]
  refine if_congr Iff.rfl rfl ?_
  have hfetch : (loop program).fetch vm = program.instructions[vm.pc]? := rfl
  rw [hfetch]
  cases program.instructions[vm.pc]? with
  | none => rfl
  | some instr =>
    have hexecute : (loop program).execute instr vm =
        (executeInstruction program instr.opcode instr.arg1 instr.arg2).run
          { vm with cycles := vm.cycles + 1 } := rfl
    dsimp only
    rw [hexecute]
    cases (executeInstruction program instr.opcode instr.arg1 instr.arg2).run
        { vm with cycles := vm.cycles + 1 } with
    | ok moves after => rfl
    | error stop after => cases stop <;> rfl

theorem start_inl {maxCycles : Nat} {trace : Option (List TraceEvent)}
    (h : start program (init maxCycles trace) = .inl vm) : vm.trace = trace ∧ vm.cycles = 0 := by
  rw [start] at h
  split at h
  · cases h
  split at h
  · cases h
  split at h
  · cases h
  · cases h
    exact ⟨rfl, rfl⟩

theorem start_inr {maxCycles : Nat} {trace : Option (List TraceEvent)} {result : VmResult}
    (h : start program (init maxCycles trace) = .inr result) : result.success = false := by
  rw [start] at h
  split at h
  · cases h
    rfl
  split at h
  · cases h
    rfl
  split at h
  · cases h
    rfl
  · cases h

/-- **The trace of the reference machine.** -/
theorem runTrace_of_runFull {maxCycles fuel : Nat}
    (h : runFull program fuel (init maxCycles (some [])) = some (halt, vm)) :
    ∃ events, vm.trace = some events ∧ RunTrace events (verdict halt) fun code message ↦
      ∃ vm, Reached program maxCycles (some []) vm ∧ InstructionTraps program vm code message := by
  rw [runFull] at h
  cases hstart : start program (init maxCycles (some [])) with
  | inr result =>
    rw [hstart] at h
    cases h
    refine ⟨[], rfl, .nil ?_ ?_⟩
    · rw [verdict, start_inr hstart]
      rintro ⟨⟩
    · rintro code message ⟨vm, ⟨vm₀, hstart', -⟩, -⟩
      cases hstart.symm.trans hstart'
  | inl vm₀ =>
    rw [hstart] at h
    obtain ⟨htrace, hcycles⟩ := start_inl hstart
    have hrun : Stepping.run (loop program).step fuel vm₀ = _ := step_eq_loop program ▸ h
    obtain ⟨events, hevents, htold⟩ := (loop program).runTrace_of_run htrace hcycles hrun
    rw [← step_eq_loop] at htold
    refine ⟨events, hevents, htold.congr fun code message ↦ exists_congr fun vm ↦ ?_⟩
    refine and_congr_left' ⟨fun hreach ↦ ⟨vm₀, hstart, hreach⟩, ?_⟩
    rintro ⟨vm₁, hstart', hreach⟩
    cases hstart.symm.trans hstart'
    exact hreach

end Vm

/-! ## The collecting machine -/

namespace GcVm

variable {program : CompiledProgram} {vm : GcVm} {halt : GcVmHalt}

/-- What the next event tells of the state. -/
def snapshot (vm : GcVm) : Snapshot := ⟨vm.cycles, vm.pc, vm.stackAsI64, vm.callStack.length⟩

/-- The instruction executed in the state traps. -/
def InstructionTraps (program : CompiledProgram) (vm : GcVm) (code : TrapCode) (message : String) :
    Prop :=
  ¬(vm.maxCycles > 0 ∧ vm.cycles ≥ vm.maxCycles) ∧ ∃ instr after, program.instructions[vm.pc]? = some instr ∧
    (executeInstruction program instr.opcode instr.arg1 instr.arg2).run
      { vm with cycles := vm.cycles + 1 } = .error (.trap code message) after

/-- How a run has ended, unless the program has crashed. -/
def verdict : GcVmHalt → Option TraceOutcome
  | .result result =>
    some (if result.success then .exit else .trap result.trapCode result.trapMessage)
  | .panic => none

theorem kept_ticks {before after : GcVm}
    (h : Kept { before with cycles := before.cycles + 1 } after) :
    after.snapshot.cycle = before.snapshot.cycle + 1 ∧ after.trace = before.trace :=
  ⟨h.cycles, h.trace⟩

/-- The parts of the collecting machine. -/
def loop (program : CompiledProgram) : Loop GcVm GcVmHalt where
  limited vm := vm.maxCycles > 0 ∧ vm.cycles ≥ vm.maxCycles
  fetch vm := program.instructions[vm.pc]?
  execute instr vm := (executeInstruction program instr.opcode instr.arg1 instr.arg2).run
    { vm with cycles := vm.cycles + 1 }
  advance vm moves := if moves then { vm with pc := vm.pc + 1 } else vm
  idle vm := vm.callStack = []
  snapshot := snapshot
  trace := GcVm.trace
  record vm event := { vm with trace := vm.trace.map (· ++ [event]) }
  limit vm := .result (vm.makeTrapResult .cycleLimit
    s!"Cycle limit exceeded ({vm.maxCycles} cycles)")
  lost vm := .result (vm.makeTrapResult .invalidInstruction s!"PC out of bounds: {vm.pc}")
  exited vm := (.result {
    success := true
    returnValue := (vm.stack.head?.map GcValue.toI64).getD 0
    trapCode := .none
    trapMessage := ""
    cycles := vm.cycles
    output := vm.output
    pc := vm.pc
    stackDepth := vm.stack.tail.length
    frameDepth := vm.callStack.length
    gcCollections := vm.gcCollections
    gcObjectsFreed := vm.gcObjectsFreed
    heapArraysAllocated := vm.nextArrayId }, { vm with stack := vm.stack.tail })
  trapped code message vm := .result (vm.makeTrapResult code message)
  crashed := .panic
  verdict := verdict
  execute_ticks instr vm :=
    (post_kept program instr.opcode instr.arg1 instr.arg2 { vm with cycles := vm.cycles + 1 }).mono
      (fun _ _ ↦ kept_ticks) fun _ _ ↦ kept_ticks
  cycle_advance _ moves := by cases moves <;> rfl
  trace_advance _ moves := by cases moves <;> rfl
  snapshot_record _ _ := rfl
  trace_record _ _ := rfl
  trace_exited _ := rfl
  verdict_limit _ := nofun
  verdict_lost _ := nofun
  verdict_exited _ := rfl
  verdict_trapped _ _ _ := rfl
  verdict_crashed := nofun

/-- The loop in `run` is the loop over these parts. -/
theorem step_eq_loop (program : CompiledProgram) : step program = (loop program).step := by
  funext vm
  rw [step, Loop.step]
  refine if_congr Iff.rfl rfl ?_
  have hfetch : (loop program).fetch vm = program.instructions[vm.pc]? := rfl
  rw [hfetch]
  cases program.instructions[vm.pc]? with
  | none => rfl
  | some instr =>
    have hexecute : (loop program).execute instr vm =
        (executeInstruction program instr.opcode instr.arg1 instr.arg2).run
          { vm with cycles := vm.cycles + 1 } := rfl
    dsimp only
    rw [hexecute]
    cases (executeInstruction program instr.opcode instr.arg1 instr.arg2).run
        { vm with cycles := vm.cycles + 1 } with
    | ok moves after => rfl
    | error stop after => cases stop <;> rfl

theorem start_inl {maxCycles : Nat} {trace : Option (List TraceEvent)}
    (h : start program (init maxCycles trace) = .inl vm) : vm.trace = trace ∧ vm.cycles = 0 := by
  rw [start] at h
  split at h
  · cases h
  split at h
  · cases h
  split at h
  · cases h
  · next hinit =>
    have hkept := kept_initGlobalArrays hinit
    cases h
    exact ⟨hkept.trace, hkept.cycles⟩

theorem start_inr {maxCycles : Nat} {trace : Option (List TraceEvent)}
    (h : start program (init maxCycles trace) = .inr halt) : verdict halt ≠ some .exit := by
  rw [start] at h
  split at h
  · cases h
    rintro ⟨⟩
  split at h
  · cases h
    rintro ⟨⟩
  split at h
  · cases h
    rintro ⟨⟩
  · cases h

/-- **The trace of the collecting machine.** -/
theorem runTrace_of_runFull {maxCycles fuel : Nat}
    (h : runFull program fuel (init maxCycles (some [])) = some (halt, vm)) :
    ∃ events, vm.trace = some events ∧ RunTrace events (verdict halt) fun code message ↦
      ∃ vm, Reached program maxCycles (some []) vm ∧ InstructionTraps program vm code message := by
  rw [runFull] at h
  cases hstart : start program (init maxCycles (some [])) with
  | inr result =>
    rw [hstart] at h
    cases h
    refine ⟨[], rfl, .nil (start_inr hstart) ?_⟩
    rintro code message ⟨vm, ⟨vm₀, hstart', -⟩, -⟩
    cases hstart.symm.trans hstart'
  | inl vm₀ =>
    rw [hstart] at h
    obtain ⟨htrace, hcycles⟩ := start_inl hstart
    have hrun : Stepping.run (loop program).step fuel vm₀ = _ := step_eq_loop program ▸ h
    obtain ⟨events, hevents, htold⟩ := (loop program).runTrace_of_run htrace hcycles hrun
    rw [← step_eq_loop] at htold
    refine ⟨events, hevents, htold.congr fun code message ↦ exists_congr fun vm ↦ ?_⟩
    refine and_congr_left' ⟨fun hreach ↦ ⟨vm₀, hstart, hreach⟩, ?_⟩
    rintro ⟨vm₁, hstart', hreach⟩
    cases hstart.symm.trans hstart'
    exact hreach

end GcVm

/-! ## Traces of runs -/

/-- **The traces of both machines** are well-formed and tell how the run has ended, and a run
without a trace is the same. -/
theorem runs_traced (program : CompiledProgram) (maxCycles fuel : Nat) :
    (∀ halt vm, Vm.runFull program fuel (Vm.init maxCycles (some [])) = some (halt, vm) →
      ∃ events, vm.trace = some events ∧
        RunTrace events (Vm.verdict halt) fun code message ↦
          ∃ vm, Vm.Reached program maxCycles (some []) vm ∧
            Vm.InstructionTraps program vm code message) ∧
    Vm.run program fuel (Vm.init maxCycles none) =
      Vm.run program fuel (Vm.init maxCycles (some [])) ∧
    (∀ halt vm, GcVm.runFull program fuel (GcVm.init maxCycles (some [])) = some (halt, vm) →
      ∃ events, vm.trace = some events ∧
        RunTrace events (GcVm.verdict halt) fun code message ↦
          ∃ vm, GcVm.Reached program maxCycles (some []) vm ∧
            GcVm.InstructionTraps program vm code message) ∧
    GcVm.run program fuel (GcVm.init maxCycles none) =
      GcVm.run program fuel (GcVm.init maxCycles (some [])) :=
  ⟨fun _ _ ↦ Vm.runTrace_of_runFull, Vm.run_init_none program maxCycles (some []) fuel,
    fun _ _ ↦ GcVm.runTrace_of_runFull, GcVm.run_init_none program maxCycles (some []) fuel⟩

/-- `main` returns 7. -/
def answer : CompiledProgram where
  instructions := [⟨.loadConst, 7, 0⟩, ⟨.return, 0, 0⟩]
  functions := AList.singleton 0 ⟨"main", 0, 0, 0, 0⟩
  globals := ∅
  mainFuncId := 0
  constants := []

theorem runs_traced_answer : ∃ (halt : VmHalt) (vm : Vm) (events : List TraceEvent),
    Vm.runFull answer 2 (Vm.init 10 (some [])) = some (halt, vm) ∧ vm.trace = some events ∧
      TraceWellFormed events ∧ ∃ event ∈ events, event.outcome = .exit := by
  have hverdict : (Vm.runFull answer 2 (Vm.init 10 (some []))).map
      (fun r ↦ Vm.verdict r.1) = some (some .exit) := by decide +kernel
  obtain ⟨⟨halt, vm⟩, hrun, hexit⟩ := Option.map_eq_some_iff.mp hverdict
  obtain ⟨events, htrace, htold⟩ := (runs_traced answer 10 2).1 halt vm hrun
  exact ⟨halt, vm, events, hrun, htrace, htold.wellFormed, htold.exit.mpr hexit⟩

end MiniLang
