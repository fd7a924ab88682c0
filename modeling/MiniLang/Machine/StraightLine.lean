import MiniLang.Machine.Scalars
import MiniLang.Machine.VmSafety

/-!
# Runs of straight-line programs

A run of a program whose `main` is straight-line code up to its first `Return`: the states it goes
through, one for each instruction, and how it ends.

## The correspondence

`ScalarAt` ties the state of the machine after `i` instructions to the scalars after them: the
program counter and the cycles are `i` further than at the start, there is one frame, and nothing
was printed. It holds for each prefix of the code that has an effect (`reached_of_run`), by
induction on its length, where the step lemma is about the last instruction; and no other state of
the loop is reached (`run_of_reached`), because the machine is deterministic and `Return` with one
frame ends the run.

## How it ends

If the whole code has an effect, the run ends with the top of its operands. Otherwise there is a
first instruction without an effect (`exists_stuck`), and the run traps there. Either way the code
is executed once at most, so that every run of such a program ends.
-/

namespace MiniLang

open Verifier

/-- `main` begins with `body`, instructions that the JIT supports, and a `Return` after them. -/
structure Straight (program : CompiledProgram) (main : FunctionInfo) (body : List Instruction) :
    Prop where
  lookup : program.functions.lookup program.mainFuncId = some main
  id_eq : main.id = program.mainFuncId
  code : ∃ ret rest, program.instructions.drop main.entryPc = body ++ ret :: rest ∧
    ret.opcode = .return
  supported : ∀ instr ∈ body, jitSupportsOpcode instr.opcode = true ∧ instr.opcode ≠ .return

theorem exists_of_jitScan {code : List Instruction} (h : (jitScan code).eligible = true) :
    ∃ body ret rest, code = body ++ ret :: rest ∧ ret.opcode = .return ∧
      ∀ instr ∈ body, jitSupportsOpcode instr.opcode = true ∧ instr.opcode ≠ .return := by
  induction code with
  | nil => cases h
  | cons instr code ih =>
    rw [jitScan] at h
    split at h
    · next hop =>
      split at h
      · next hreturn => exact ⟨[], instr, code, rfl, hreturn, fun _ h ↦ absurd h List.not_mem_nil⟩
      · next hreturn =>
        obtain ⟨body, ret, rest, rfl, hret, hbody⟩ := ih h
        exact ⟨instr :: body, ret, rest, rfl, hret,
          List.forall_mem_cons.mpr ⟨⟨hop, hreturn⟩, hbody⟩⟩
    · cases h

namespace Straight

variable {program : CompiledProgram} {main : FunctionInfo} {body : List Instruction}
  {instr : Instruction} {i : Nat}

theorem getElem? (h : Straight program main body) (hi : body[i]? = some instr) :
    program.instructions[main.entryPc + i]? = some instr := by
  obtain ⟨ret, rest, hcode, -⟩ := h.code
  rw [← List.getElem?_drop, hcode, List.getElem?_append_left (List.getElem?_eq_some_iff.mp hi).1]
  exact hi

theorem exists_return (h : Straight program main body) :
    ∃ ret, program.instructions[main.entryPc + body.length]? = some ret ∧ ret.opcode = .return := by
  obtain ⟨ret, rest, hcode, hret⟩ := h.code
  refine ⟨ret, ?_, hret⟩
  rw [← List.getElem?_drop, hcode, List.getElem?_append_right le_rfl, Nat.sub_self,
    List.getElem?_cons_zero]

end Straight

namespace Vm

variable {program : CompiledProgram} {main : FunctionInfo} {body : List Instruction}
  {maxCycles i : Nat} {trace : Option (List TraceEvent)} {s : Scalars} {vm vm₀ : Vm}

/-- The machine has executed `i` instructions of `main`, which took the scalars to `s`. -/
structure ScalarAt (program : CompiledProgram) (main : FunctionInfo) (maxCycles i : Nat)
    (s : Scalars) (vm : Vm) : Prop where
  scalars_eq : vm.scalars = s
  callStack_eq : vm.callStack = [⟨usizeMax, 0, program.mainFuncId⟩]
  pc_eq : vm.pc = main.entryPc + i
  cycles_eq : vm.cycles = i
  limit_eq : vm.maxCycles = maxCycles
  output_eq : vm.output = []

/-- How a step in `main` may end: after `some` effect it goes on, else it traps. -/
def StepsTo (program : CompiledProgram) (main : FunctionInfo) (maxCycles i : Nat) (vm : Vm) :
    Option Scalars → Prop
  | some s => ∃ vm', step program vm = .inl vm' ∧ ScalarAt program main maxCycles i s vm'
  | none => ∃ result vm', step program vm = .inr (.result result, vm') ∧ result.success = false

/-- How a run may end: with the top of the `some` operands, else with a trap. -/
def EndsWith (result : VmResult) : Option Int → Prop
  | some value => result.success = true ∧ result.trapCode = .none ∧ result.returnValue = value ∧
    result.output = []
  | none => result.success = false

/-- What a run in `main` relies on. -/
structure Setup (program : CompiledProgram) (main : FunctionInfo) (body : List Instruction)
    (maxCycles : Nat) : Prop extends Straight program main body where
  localCount_le : main.localCount ≤ maxLocalSlots
  cycles : maxCycles = 0 ∨ body.length < maxCycles

theorem ScalarAt.inFrame (h : ScalarAt program main maxCycles i s vm)
    (hsetup : Setup program main body maxCycles) : InFrame program main.localCount vm :=
  ⟨⟨_, main, h.callStack_eq, rfl, rfl, hsetup.lookup, rfl⟩, hsetup.localCount_le⟩

theorem ScalarAt.not_limit (h : ScalarAt program main maxCycles i s vm)
    (hsetup : Setup program main body maxCycles) (hi : i ≤ body.length) :
    ¬(vm.maxCycles > 0 ∧ vm.cycles ≥ vm.maxCycles) := by
  have := hsetup.cycles
  rw [h.limit_eq, h.cycles_eq]
  omega

/-- **The step lemma.** -/
theorem stepsTo (hsetup : Setup program main body maxCycles) {instr : Instruction}
    (h : ScalarAt program main maxCycles i s vm) (hfits : s.Fits) (hi : body[i]? = some instr) :
    StepsTo program main maxCycles (i + 1) vm (s.exec main.localCount instr) := by
  obtain ⟨hop, hreturn⟩ := hsetup.supported instr (List.mem_of_getElem? hi)
  have hlt : i < body.length := (List.getElem?_eq_some_iff.mp hi).1
  have hlimit := h.not_limit hsetup hlt.le
  have hinstr : program.instructions[vm.pc]? = some instr := by rw [h.pc_eq, hsetup.getElem? hi]
  have hscalars : s = Vm.scalars { vm with cycles := vm.cycles + 1 } := h.scalars_eq.symm
  have hframe : InFrame program main.localCount { vm with cycles := vm.cycles + 1 } :=
    ⟨(h.inFrame hsetup).frame, hsetup.localCount_le⟩
  have hexec := has_exec hframe (hscalars ▸ hfits) hop hreturn
  rw [← hscalars] at hexec
  cases hresult : s.exec main.localCount instr with
  | some s' =>
    rw [hresult] at hexec
    refine ⟨recordTrace vm { withScalars { vm with cycles := vm.cycles + 1 } s' with
      pc := vm.pc + 1 } instr .continue, ?_, ?_⟩
    · rw [step, if_neg hlimit, hinstr]
      simp only [show _ = _ from hexec]
      rw [afterInstruction]
      refine if_neg ?_
      exact h.callStack_eq ▸ List.cons_ne_nil _ _
    · exact ⟨rfl, h.callStack_eq, by rw [← Nat.add_assoc, ← h.pc_eq]; rfl,
        by rw [← h.cycles_eq]; rfl, h.limit_eq, h.output_eq⟩
  | none =>
    rw [hresult] at hexec
    obtain ⟨code, message, vm', hexec⟩ := hexec
    have hstep : step program vm = .inr (.result (vm'.makeTrapResult code message),
        recordTrace vm vm' instr (.trap code message)) := by
      rw [step, if_neg hlimit, hinstr]
      simp only [hexec]
    exact ⟨_, _, hstep, rfl⟩

/-- The last step. -/
theorem step_return (hsetup : Setup program main body maxCycles)
    (h : ScalarAt program main maxCycles body.length s vm) (hfits : s.Fits) :
    ∃ result vm', step program vm = .inr (.result result, vm') ∧ EndsWith result s.stack.head? := by
  obtain ⟨⟨opcode, arg1, arg2⟩, hret, hop⟩ := hsetup.exists_return
  obtain rfl : opcode = .return := hop
  have hlimit := h.not_limit hsetup le_rfl
  have hinstr : program.instructions[vm.pc]? = some ⟨.return, arg1, arg2⟩ := by rw [h.pc_eq, hret]
  obtain rfl := h.scalars_eq
  cases hstack : vm.stack with
  | nil =>
    have hexec : (executeInstruction program .return arg1 arg2).run
        { vm with cycles := vm.cycles + 1 } =
        .error (.trap .stackUnderflow "Stack underflow") { vm with cycles := vm.cycles + 1 } := by
      simp only [executeInstruction, ret, pop, EStateM.run_bind, EStateM.run_get, hstack]
      rfl
    have hstep : step program vm = .inr (.result (Vm.makeTrapResult
        { vm with cycles := vm.cycles + 1 } .stackUnderflow "Stack underflow"),
        recordTrace vm { vm with cycles := vm.cycles + 1 } ⟨.return, arg1, arg2⟩
          (.trap .stackUnderflow "Stack underflow")) := by
      rw [step, if_neg hlimit, hinstr]
      simp only [hexec]
    refine ⟨_, _, hstep, ?_⟩
    rw [show vm.scalars.stack = [] from hstack]
    rfl
  | cons value stack =>
    have hroom := (hfits.tail hstack).2.1
    have hexec : (executeInstruction program .return arg1 arg2).run
        { vm with cycles := vm.cycles + 1 } = .ok false
        { vm with cycles := vm.cycles + 1, stack := value :: stack, callStack := [] } := by
      rw [executeInstruction, ret, EStateM.run_bind,
        @run_pop { vm with cycles := vm.cycles + 1 } value stack hstack]
      simp only [EStateM.run_bind, EStateM.run_get, h.callStack_eq, EStateM.run_modify]
      rw [@run_push { vm with cycles := vm.cycles + 1, stack := stack, callStack := [] } value hroom]
      rfl
    have hstep : ∃ result vm', step program vm = .inr (.result result, vm') ∧
        EndsWith result (some value) := by
      rw [step, if_neg hlimit, hinstr]
      simp only [hexec]
      exact ⟨_, _, rfl, rfl, rfl, rfl, h.output_eq⟩
    rw [show vm.scalars.stack = value :: stack from hstack]
    exact hstep

/-! ## Runs -/

/-- The start of a run in `main`. -/
theorem scalarAt_start (hsetup : Setup program main body maxCycles)
    (hvalidate : program.validate = .ok ()) (trace : Option (List TraceEvent)) :
    ∃ vm₀, Vm.start program (init maxCycles trace) = .inl vm₀ ∧
      ScalarAt program main maxCycles 0 .start vm₀ := by
  have hstart : Vm.start program (init maxCycles trace) = .inl { init maxCycles trace with
      pc := main.entryPc
      callStack := [⟨usizeMax, 0, program.mainFuncId⟩] } := by
    rw [Vm.start, hvalidate, hsetup.lookup]
    dsimp only
    rw [if_neg (Nat.not_lt.mpr hsetup.localCount_le), hsetup.id_eq]
    rfl
  exact ⟨_, hstart, rfl, rfl, rfl, rfl, rfl, rfl⟩

/-- Every prefix of the code that has an effect is executed. -/
theorem reached_of_run (hsetup : Setup program main body maxCycles)
    (hvalidate : program.validate = .ok ()) (trace : Option (List TraceEvent))
    (hi : i ≤ body.length) (hrun : Scalars.start.run main.localCount (body.take i) = some s) :
    ∃ vm, Reached program maxCycles trace vm ∧ ScalarAt program main maxCycles i s vm := by
  induction i generalizing s with
  | zero =>
    obtain ⟨vm₀, hstart, hvm₀⟩ := scalarAt_start hsetup hvalidate trace
    obtain rfl := Option.some_inj.mp hrun
    exact ⟨vm₀, ⟨vm₀, hstart, .refl vm₀⟩, hvm₀⟩
  | succ i ih =>
    have hget : body[i]? = some body[i] := List.getElem?_eq_getElem hi
    rw [List.take_add_one, hget, Option.toList_some, Scalars.run_concat] at hrun
    obtain ⟨s₁, hrun₁, hexec⟩ := Option.bind_eq_some_iff.mp hrun
    obtain ⟨vm, ⟨vm₀, hstart, hreaches⟩, hvm⟩ := ih (Nat.le_of_succ_le hi) hrun₁
    have hnext := stepsTo hsetup hvm (Scalars.fits_start.run hrun₁) hget
    rw [hexec] at hnext
    obtain ⟨vm', hstep, hvm'⟩ := hnext
    exact ⟨vm', ⟨vm₀, hstart, hreaches.tail hstep⟩, hvm'⟩

/-- **The run lemma.** Nothing else is reached. -/
theorem run_of_reached (hsetup : Setup program main body maxCycles)
    (hvalidate : program.validate = .ok ()) (h : Reached program maxCycles trace vm) :
    ∃ i s, i ≤ body.length ∧ Scalars.start.run main.localCount (body.take i) = some s ∧
      ScalarAt program main maxCycles i s vm := by
  obtain ⟨vm₀, hstart, hreaches⟩ := h
  induction hreaches with
  | refl =>
    obtain ⟨_, hstart', hvm₀⟩ := scalarAt_start hsetup hvalidate trace
    obtain rfl := Sum.inl.inj (hstart.symm.trans hstart')
    exact ⟨0, .start, Nat.zero_le _, rfl, hvm₀⟩
  | @tail vm vm' _ hstep ih =>
    obtain ⟨i, s, hi, hrun, hvm⟩ := ih
    have hfits := Scalars.fits_start.run hrun
    rcases Nat.lt_or_eq_of_le hi with hlt | rfl
    · have hget : body[i]? = some body[i] := List.getElem?_eq_getElem hlt
      have hnext := stepsTo hsetup hvm hfits hget
      cases hexec : s.exec main.localCount body[i] with
      | none =>
        rw [hexec] at hnext
        obtain ⟨_, _, hend, -⟩ := hnext
        rw [hstep] at hend
        cases hend
      | some s' =>
        rw [hexec] at hnext
        obtain ⟨vm'', hstep', hvm'⟩ := hnext
        obtain rfl := Sum.inl.inj (hstep.symm.trans hstep')
        refine ⟨i + 1, s', hlt, ?_, hvm'⟩
        rw [List.take_add_one, hget, Option.toList_some, Scalars.run_concat, hrun]
        exact hexec
    · obtain ⟨_, _, hend, -⟩ := step_return hsetup hvm hfits
      rw [hstep] at hend
      cases hend

/-- A piece of code without an effect has a first instruction without one. -/
theorem exists_stuck {localCount : Nat} (h : Scalars.start.run localCount body = none) :
    ∃ i s instr, body[i]? = some instr ∧
      Scalars.start.run localCount (body.take i) = some s ∧ s.exec localCount instr = none := by
  induction body using List.reverseRecOn with
  | nil => cases h
  | append_singleton code instr ih =>
    rw [Scalars.run_concat] at h
    cases hrun : Scalars.start.run localCount code with
    | some s =>
      rw [hrun] at h
      exact ⟨code.length, s, instr, List.getElem?_concat_length, by rwa [List.take_left' rfl], h⟩
    | none =>
      obtain ⟨i, s, instr', hi, htake, hstuck⟩ := ih hrun
      have hlt := (List.getElem?_eq_some_iff.mp hi).1
      refine ⟨i, s, instr', ?_, ?_, hstuck⟩
      · rw [List.getElem?_append_left hlt, hi]
      · rw [List.take_append_of_le_length hlt.le, htake]

/-- **Every run ends**, as the effect of the code says. -/
theorem runFull_straight (hsetup : Setup program main body maxCycles)
    (hvalidate : program.validate = .ok ()) (trace : Option (List TraceEvent)) :
    ∃ fuel result vm, runFull program fuel (init maxCycles trace) = some (.result result, vm) ∧
      EndsWith result
        ((Scalars.start.run main.localCount body).bind fun s ↦ s.stack.head?) := by
  suffices h : ∃ vm₀ vm result vm', Vm.start program (init maxCycles trace) = .inl vm₀ ∧
      Stepping.Reaches (step program) vm₀ vm ∧ step program vm = .inr (.result result, vm') ∧
      EndsWith result ((Scalars.start.run main.localCount body).bind fun s ↦ s.stack.head?) by
    obtain ⟨vm₀, vm, result, vm', hstart, hreaches, hstep, hend⟩ := h
    obtain ⟨fuel, hrun⟩ := Stepping.exists_run_of_reaches hreaches hstep
    exact ⟨fuel, result, vm', by rw [runFull, hstart]; exact hrun, hend⟩
  cases hbody : Scalars.start.run main.localCount body with
  | some s =>
    obtain ⟨vm, ⟨vm₀, hstart, hreaches⟩, hvm⟩ := reached_of_run hsetup hvalidate trace le_rfl
      (by rwa [List.take_length])
    obtain ⟨result, vm', hstep, hend⟩ := step_return hsetup hvm (Scalars.fits_start.run hbody)
    exact ⟨vm₀, vm, result, vm', hstart, hreaches, hstep, hend⟩
  | none =>
    obtain ⟨i, s, instr, hi, hrun, hstuck⟩ := exists_stuck hbody
    have hlt := (List.getElem?_eq_some_iff.mp hi).1
    obtain ⟨vm, ⟨vm₀, hstart, hreaches⟩, hvm⟩ := reached_of_run hsetup hvalidate trace hlt.le hrun
    have hnext := stepsTo hsetup hvm (Scalars.fits_start.run hrun) hi
    rw [hstuck] at hnext
    obtain ⟨result, vm', hstep, hend⟩ := hnext
    exact ⟨vm₀, vm, result, vm', hstart, hreaches, hstep, hend⟩

end Vm

end MiniLang
