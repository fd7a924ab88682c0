import MiniLang.Machine.Unseen
import MiniLang.Machine.VmSafety
import MiniLang.Machine.GcVm

/-!
# Cycles and traces

No instruction looks at the count of cycles, at its limit or at the trace, and none changes them. A
machine therefore does the same with a trace as without, and with a limit as without until the limit
is reached.

## Retuning

`retune` gives a machine another count, another limit and another trace. That instructions are blind
to it is one statement about each opcode, `blind_executeInstruction`, whose proof comes from the
rules for operations that look at values only; calls and returns, which build and take off frames,
are the exception and have rules of their own. It says two things at once. An instruction executed
on the retuned machine has the retuned outcome; and since any count may be put in, the outcome has
the count that was put in.

## Limits

The loop of the source checks the limit before it counts the cycle and executes the instruction. A
run with a limit thus either ends as the one without, or is cut off in the first state with as many
cycles as the limit (`run_limited_cases`). Which of the two depends on whether the run without a
limit gets that far (`Passes`), and not on what it does later, so that a run that never ends without
a limit is covered as well.
-/

namespace MiniLang

open EStateM

/-! ## The reference machine -/

namespace Vm

variable {program : CompiledProgram} {α : Type}

/-- The machine with another count of cycles, another limit and another trace. -/
def retune (cycles limit : Nat) (trace : Option (List TraceEvent)) (vm : Vm) : Vm :=
  { vm with cycles := cycles, maxCycles := limit, trace := trace }

section

variable {cycles limit : Nat} {trace : Option (List TraceEvent)}

theorem unseen_retune : Unseen (retune cycles limit trace) :=
  ⟨fun _ ↦ rfl, fun _ ↦ rfl, fun _ ↦ rfl, fun _ ↦ rfl, fun _ _ ↦ rfl, fun _ _ ↦ rfl, fun _ _ ↦ rfl,
    fun _ _ ↦ rfl⟩

theorem reentered_refl (program : CompiledProgram) :
    Reentered FunctionInfo.entryPc program program :=
  fun _ ↦ Option.map_id'.symm

theorem blind_ret : Blind (retune cycles limit trace) ret := by
  intro vm
  refine unseen_retune.run_ret (fun vm' frame frames hvm' hframe ↦ ?_) fun vm' hvm' hnil ↦ ?_
  · exact ⟨frame, frames, hvm'.trans hframe, rfl, Iff.rfl, fun _ _ ↦ rfl⟩
  · exact hvm'.trans hnil

/-- **Instructions are blind** to cycles and to the trace. -/
theorem blind_executeInstruction (opcode : Opcode) (arg1 arg2 : Int32) :
    Blind (retune cycles limit trace) (executeInstruction program opcode arg1 arg2) := by
  have hslot : Commutes (retune cycles limit trace) (currentLocalSlot program arg1)
      (currentLocalSlot program arg1) :=
    commutes_currentLocalSlot (u := retune cycles limit trace) (reentered_refl program)
      (fun _ ↦ rfl) arg1
  by_cases hop : opcode ∉ [.jump, .jumpIfFalse, .jumpIfTrue, .call, .return, .halt]
  · exact unseen_retune.executeInstruction arg1 arg2 hslot hop
  cases opcode with
  | jump | jumpIfFalse | jumpIfTrue =>
    exact unseen_retune.executeInstruction_jump arg2 (fun _ ↦ rfl) (by simp)
  | call =>
    intro vm
    exact unseen_retune.run_call (reentered_refl program) (fun _ ↦ rfl)
      (fun _ _ _ _ _ _ _ ↦ rfl) arg1 arg2
  | «return» => exact blind_ret
  | halt => exact unseen_retune.executeInstruction_halt arg1 arg2 fun _ _ ↦ rfl
  | _ => simp at hop

end

/-- An instruction changes neither cycles nor the trace. -/
structure Kept (vm vm' : Vm) : Prop where
  cycles : vm'.cycles = vm.cycles
  maxCycles : vm'.maxCycles = vm.maxCycles
  trace : vm'.trace = vm.trace

theorem kept_of_retune {vm vm' : Vm}
    (h : retune vm.cycles vm.maxCycles vm.trace vm' = vm') : Kept vm vm' :=
  ⟨(congrArg Vm.cycles h).symm, (congrArg Vm.maxCycles h).symm, (congrArg Vm.trace h).symm⟩

theorem post_kept (program : CompiledProgram) (opcode : Opcode) (arg1 arg2 : Int32) (vm : Vm) :
    ((executeInstruction program opcode arg1 arg2).run vm).Post (fun _ vm' ↦ Kept vm vm')
      fun _ vm' ↦ Kept vm vm' :=
  ((blind_executeInstruction opcode arg1 arg2).post (s := vm) rfl).mono
    (fun _ _ ↦ kept_of_retune) fun _ _ ↦ kept_of_retune

/-! ### Steps -/

variable {limit : Nat} {vm vm' : Vm}

/-- The machine with another limit and without a trace. -/
def limited (limit : Nat) (vm : Vm) : Vm := { vm with maxCycles := limit, trace := none }

/-- What becomes of the outcome of a step. -/
def limitedStep (limit : Nat) : Vm ⊕ (VmHalt × Vm) → Vm ⊕ (VmHalt × Vm)
  | .inl vm => .inl (limited limit vm)
  | .inr (halt, vm) => .inr (halt, limited limit vm)

/-- The limit of cycles has been reached. -/
def AtLimit (vm : Vm) : Prop := vm.maxCycles > 0 ∧ vm.cycles ≥ vm.maxCycles

theorem run_limited (opcode : Opcode) (arg1 arg2 : Int32) :
    (executeInstruction program opcode arg1 arg2).run
        { limited limit vm with cycles := vm.cycles + 1 } =
      ((executeInstruction program opcode arg1 arg2).run
        { vm with cycles := vm.cycles + 1 }).mapState (limited limit) := by
  have hblind := @blind_executeInstruction program (vm.cycles + 1) limit none opcode arg1 arg2
    { vm with cycles := vm.cycles + 1 }
  have hkept := post_kept program opcode arg1 arg2 { vm with cycles := vm.cycles + 1 }
  refine hblind.trans ?_
  cases hrun : (executeInstruction program opcode arg1 arg2).run
      { vm with cycles := vm.cycles + 1 } with
  | ok advance after =>
    rw [hrun] at hkept
    have hcycles : after.cycles = vm.cycles + 1 := hkept.cycles
    rw [EStateM.Result.mapState, EStateM.Result.mapState, retune, limited, ← hcycles]
  | error e after =>
    rw [hrun] at hkept
    have hcycles : after.cycles = vm.cycles + 1 := hkept.cycles
    rw [EStateM.Result.mapState, EStateM.Result.mapState, retune, limited, ← hcycles]

theorem afterInstruction_limited (before after : Vm) (instr : Instruction) (advance : Bool) :
    afterInstruction (limited limit before) instr (limited limit after) advance =
      limitedStep limit (afterInstruction before instr after advance) := by
  by_cases hframes : after.callStack = []
  all_goals cases advance <;>
    simp [afterInstruction, limitedStep, limited, recordTrace, hframes]

/-- A step that no limit prevents. -/
theorem step_limited (h : ¬AtLimit vm) (h' : ¬AtLimit (limited limit vm)) :
    step program (limited limit vm) = limitedStep limit (step program vm) := by
  refine (if_neg h').trans (Eq.trans ?_ (congrArg (limitedStep limit) (if_neg h)).symm)
  have hfetch : program.instructions[(limited limit vm).pc]? = program.instructions[vm.pc]? := rfl
  rw [hfetch]
  cases program.instructions[vm.pc]? with
  | none => rfl
  | some instr =>
    dsimp only
    rw [show (limited limit vm).cycles = vm.cycles from rfl, run_limited]
    cases (executeInstruction program instr.opcode instr.arg1 instr.arg2).run
        { vm with cycles := vm.cycles + 1 } with
    | ok advance after => exact afterInstruction_limited vm after instr advance
    | error e after =>
      cases e with
      | trap code message => rfl
      | panic => rfl

/-! ### Runs -/

/-- The trace does not matter to a step. -/
theorem step_untraced (hlimit : vm.maxCycles = limit) :
    step program (limited limit vm) = limitedStep limit (step program vm) := by
  by_cases h : AtLimit vm
  · have h' : AtLimit (limited limit vm) := by
      subst hlimit
      exact h
    refine (if_pos h').trans (Eq.trans ?_ (congrArg (limitedStep limit) (if_pos h)).symm)
    subst hlimit
    rfl
  · refine step_limited h fun h' ↦ h ?_
    subst hlimit
    exact h'

theorem run_untraced (hlimit : vm.maxCycles = limit) (fuel : Nat) :
    (Stepping.run (step program) fuel (limited limit vm)).map Prod.fst =
      (Stepping.run (step program) fuel vm).map Prod.fst := by
  induction fuel generalizing vm with
  | zero => rfl
  | succ fuel ih =>
    have hstep := @step_untraced program limit vm hlimit
    cases h : step program vm with
    | inl vm' =>
      rw [h] at hstep
      rw [Stepping.run_of_next h, Stepping.run_of_next hstep]
      exact ih ((cycles_of_step h).2.trans hlimit)
    | inr r =>
      rw [h] at hstep
      rw [Stepping.run_of_end h, Stepping.run_of_end hstep]
      rfl

/-! ### Limits -/

theorem cycles_le_of_reaches (h : Stepping.Reaches (step program) vm vm') :
    vm.cycles ≤ vm'.cycles := by
  induction h with
  | refl => exact le_rfl
  | tail _ hstep ih => exact ih.trans (by rw [(cycles_of_step hstep).1]; exact Nat.le_succ _)

/-- An instruction takes one cycle, also where it ends the run. -/
theorem cycles_of_end {result : VmResult} (h : step program vm = .inr (.result result, vm')) :
    vm.cycles ≤ result.cycles ∧ result.cycles ≤ vm.cycles + 1 := by
  rw [step] at h
  split at h
  · cases h
    exact ⟨le_rfl, Nat.le_succ _⟩
  cases hinstr : program.instructions[vm.pc]? with
  | none =>
    rw [hinstr] at h
    cases h
    exact ⟨le_rfl, Nat.le_succ _⟩
  | some instr =>
  rw [hinstr] at h
  dsimp only at h
  have hkept := post_kept program instr.opcode instr.arg1 instr.arg2
    { vm with cycles := vm.cycles + 1 }
  have hsucc {n : Nat} (hn : n = vm.cycles + 1) : vm.cycles ≤ n ∧ n ≤ vm.cycles + 1 :=
    ⟨hn ▸ Nat.le_succ _, hn.le⟩
  cases hrun : (executeInstruction program instr.opcode instr.arg1 instr.arg2).run
      { vm with cycles := vm.cycles + 1 } with
  | ok advance after =>
    rw [hrun] at h hkept
    cases advance
    all_goals
      simp only [afterInstruction, if_true, Bool.false_eq_true, if_false] at h
      split at h
      · cases h
        exact hsucc hkept.cycles
      · cases h
  | error e after =>
    rw [hrun] at h hkept
    cases e with
    | trap code message =>
      cases h
      exact hsucc hkept.cycles
    | panic => cases h

/-- The run from `vm` on gets as far as the limit. -/
def Passes (program : CompiledProgram) (limit : Nat) (vm : Vm) : Prop :=
  ∃ vm', Stepping.Reaches (step program) vm vm' ∧ limit ≤ vm'.cycles

/-- The halt of a machine that has used up its cycles. -/
def CutOff (halt : VmHalt) : Prop :=
  ∃ result, halt = .result result ∧ result.success = false ∧ result.trapCode = .cycleLimit

/-- **Runs with a limit.** A run with a limit is cut off where the run without one gets as far as
the limit, and otherwise ends as that does. -/
theorem run_limited_cases {halt : VmHalt} {final : Vm} {fuel : Nat} (hplain : vm.maxCycles = 0)
    (hlimit : 0 < limit) (hcycles : vm.cycles ≤ limit)
    (hrun : Stepping.run (step program) fuel (limited limit vm) = some (halt, final)) :
    Passes program limit vm ∧ CutOff halt ∨
      (∃ final', Stepping.run (step program) fuel vm = some (halt, final')) ∧
        ∀ result, halt = .result result → result.cycles ≤ limit := by
  have hnot : ¬AtLimit vm := fun h ↦ absurd h.1 (by omega)
  induction fuel generalizing vm with
  | zero => cases hrun
  | succ fuel ih =>
    by_cases hend : AtLimit (limited limit vm)
    · have hstep : step program (limited limit vm) = _ := if_pos hend
      rw [Stepping.run_of_end hstep] at hrun
      cases hrun
      exact .inl ⟨⟨vm, .refl vm, hend.2⟩, _, rfl, rfl, rfl⟩
    · have hlt : vm.cycles < limit := Nat.lt_of_not_le fun hle ↦ hend ⟨hlimit, hle⟩
      have hlimited := @step_limited program limit vm hnot hend
      cases hstep : step program vm with
      | inl vm' =>
        rw [hstep] at hlimited
        rw [Stepping.run_of_next hlimited] at hrun
        obtain ⟨hcycles', hmax⟩ := cycles_of_step hstep
        rw [Stepping.run_of_next hstep]
        rcases ih (hmax.trans hplain) (by omega) hrun (fun h ↦ absurd h.1 (by omega)) with
          ⟨⟨t, hreach, ht⟩, hcut⟩ | hsame
        · exact .inl ⟨⟨t, .head hstep hreach, ht⟩, hcut⟩
        · exact .inr hsame
      | inr r =>
        rw [hstep] at hlimited
        rw [Stepping.run_of_end hlimited] at hrun
        cases hrun
        refine .inr ⟨⟨r.2, Stepping.run_of_end hstep⟩, fun result hresult ↦ ?_⟩
        have hbound := (@cycles_of_end program vm r.2 result (by rw [hstep, ← hresult])).2
        omega

/-- A run with a limit is cut off where the run without one gets as far. -/
theorem cutOff_of_passes {halt : VmHalt} {final : Vm} {fuel : Nat} (hplain : vm.maxCycles = 0)
    (hlimit : 0 < limit) (hpasses : Passes program limit vm)
    (hrun : Stepping.run (step program) fuel (limited limit vm) = some (halt, final)) :
    CutOff halt := by
  have hnot : ¬AtLimit vm := fun h ↦ absurd h.1 (by omega)
  induction fuel generalizing vm with
  | zero => cases hrun
  | succ fuel ih =>
    by_cases hend : AtLimit (limited limit vm)
    · have hstep : step program (limited limit vm) = _ := if_pos hend
      rw [Stepping.run_of_end hstep] at hrun
      cases hrun
      exact ⟨_, rfl, rfl, rfl⟩
    · have hlimited := @step_limited program limit vm hnot hend
      obtain ⟨last, hreach, hlast⟩ := hpasses
      rcases hreach.cases_head with rfl | ⟨vm', hstep, hrest⟩
      · exact absurd ⟨hlimit, hlast⟩ hend
      · rw [hstep] at hlimited
        rw [Stepping.run_of_next hlimited] at hrun
        have hmax := (cycles_of_step hstep).2.trans hplain
        exact ih hmax ⟨last, hrest, hlast⟩ hrun fun h ↦ absurd h.1 (by omega)

/-! ### Tracing -/

theorem start_init (program : CompiledProgram) (maxCycles : Nat)
    (trace : Option (List TraceEvent)) : start program (init maxCycles none) =
      match start program (init maxCycles trace) with
      | .inl vm => .inl (limited maxCycles vm)
      | .inr result => .inr result := by
  rw [start, start]
  cases program.validate with
  | error e => rfl
  | ok _ =>
    dsimp only
    cases program.functions.lookup program.mainFuncId with
    | none => rfl
    | some main =>
      dsimp only
      split <;> rfl

/-- **Tracing changes nothing.** -/
theorem run_init_none (program : CompiledProgram) (maxCycles : Nat)
    (trace : Option (List TraceEvent)) (fuel : Nat) :
    run program fuel (init maxCycles none) = run program fuel (init maxCycles trace) := by
  rw [run, run, runFull, runFull, start_init program maxCycles trace]
  cases hstart : start program (init maxCycles trace) with
  | inr result => rfl
  | inl vm =>
    refine run_untraced ?_ fuel
    rw [start] at hstart
    split at hstart
    · cases hstart
    · split at hstart
      · cases hstart
      · split at hstart
        · cases hstart
        · rw [← Sum.inl.inj hstart]
          rfl

end Vm

end MiniLang
