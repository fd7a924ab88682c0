import MiniLang.Machine.VmSafety

/-!
# What a report predicts

A verified program stops only in the ways its report predicts, exactly when no step of the run loads
a parameter of the initial frame of `main` that has not been set. The verifier takes the parameters
of `main` for initialised, as those of any function, but nobody passes them.

## Which setting

The safety argument is used with no assumption on how frames return, since a value left behind makes
the stack deeper, never too shallow for the certificate. It is lenient for programs that read
elements of local arrays: there a cell may hold the marker of an undefined local, and the report
knows nothing of it. What such a program may do beyond its report is `PanicsOnMarker`, a negation of
the marker or its division by `-1` at the last step. An index out of the locals, a missing frame and
every other panic stay excluded.

## Both directions

A run whose steps load no unset parameter is safe to its end, so it ends as predicted. A step that
loads one ends the run with an `UndefinedLocal` trap. Unless the report has that code, or the
program reads elements of local arrays, such a trap is not predicted.
-/

namespace MiniLang

open Verifier

namespace Vm

variable {program : CompiledProgram} {maxCycles : Nat} {trace : Option (List TraceEvent)} {vm : Vm}

/-- The program reads elements of local arrays. -/
def HasLocalArrayLoad (program : CompiledProgram) : Prop :=
  ∃ instr ∈ program.instructions, instr.opcode = .localArrayLoad

/-- The safety argument for a report, with no assumption on how frames return. -/
def reportSetting (program : CompiledProgram) : Setting where
  program := program
  traps := (verify program).possibleTraps
  lenient := HasLocalArrayLoad program
  balanced := False

/-- The last step of the run, to `last`, panicked on the marker of an undefined local: an element
of a local array held it, and the step negates it or divides it by `-1`. -/
def PanicsOnMarker (program : CompiledProgram) (maxCycles : Nat) (trace : Option (List TraceEvent))
    (last : Vm) : Prop :=
  HasLocalArrayLoad program ∧ ∃ vm instr, Reached program maxCycles trace vm ∧
    step program vm = .inr (.panic, last) ∧ program.instructions[vm.pc]? = some instr ∧
    OverflowsOnMarker instr vm.stack

/-- The run with these options, which came to `halt` in the state `last`, ended as the report of the
program predicts. -/
def EndsAsPredicted (program : CompiledProgram) (maxCycles : Nat) (trace : Option (List TraceEvent))
    (last : Vm) : VmHalt → Prop
  | .result result =>
    result.success = true ∨
      Predicted (reportSetting program) (.trap result.trapCode result.trapMessage)
  | .panic => PanicsOnMarker program maxCycles trace last

theorem assumed_of_not_reads (h : .undefinedLocal ∈ (verify program).possibleTraps ∨
    HasLocalArrayLoad program ∨ ¬ReadsUnsetParameter program vm) :
    Assumed (reportSetting program) vm where
  load instr hinstr hop := ⟨instr, List.mem_of_getElem? hinstr, hop⟩
  read hload hlisted := (h.resolve_left hlisted).resolve_left hload
  balanced h := h.elim

/-- The step that loads an unset parameter traps. -/
theorem step_of_reads (hverified : Verified program (verify program).possibleTraps)
    (hsafe : Safe (reportSetting program) vm) (h : ReadsUnsetParameter program vm) :
    ∃ result vm', step program vm = .inr (.result result, vm') ∧ result.success = false ∧
      result.trapCode = .undefinedLocal := by
  obtain ⟨hlimit, frame, info, instr, hstack, hinfo, hinstr, hparam, hcell, hop⟩ := h
  obtain ⟨act, st, ⟨hlookup, range, -, hrange, hcert, hst⟩, hvm⟩ := hsafe
  obtain ⟨instr', hinstr', hops, -⟩ := hcert.step _ st hst
  obtain rfl := Option.some_inj.mp (hinstr.symm.trans hinstr')
  obtain ⟨rfl, -⟩ := List.cons_eq_cons.mp (hstack.symm.trans hvm.callStack)
  obtain rfl := Option.some_inj.mp (hinfo.symm.trans hlookup)
  have hslot := Nat.lt_of_lt_of_le hparam (hverified.slots _ _ hinfo).1
  have hlt := hvm.cell_lt hslot
  suffices hrun : ∃ message vm', (executeInstruction program instr.opcode instr.arg1 instr.arg2).run
      { vm with cycles := vm.cycles + 1 } = .error (.trap .undefinedLocal message) vm' by
    obtain ⟨message, vm', hrun⟩ := hrun
    rw [step, if_neg hlimit, hinstr]
    simp only [hrun]
    exact ⟨_, _, rfl, rfl, rfl⟩
  obtain ⟨opcode, arg1, arg2⟩ := instr
  rcases hop with hop | ⟨hop, value, index, stack, hvalues, hneg, hindex⟩
  · obtain rfl : opcode = .loadLocal := hop
    obtain ⟨hraw, -⟩ : IsLocal range arg1 := hops
    refine ⟨s!"Undefined local at slot {arg1.toInt}", { vm with cycles := vm.cycles + 1 }, ?_⟩
    simp only [executeInstruction, EStateM.run_bind,
      @run_currentLocalSlot program { vm with cycles := vm.cycles + 1 } act.frame _ act.info arg1 hraw hstack
        hinfo hslot hlt, @run_readLocal { vm with cycles := vm.cycles + 1 } _ _ hcell, if_true]
    rfl
  · obtain rfl : opcode = .localArrayStore := hop
    obtain ⟨hsize, hraw, -⟩ : 0 < arg2 ∧ IsLocal range arg1 := hops
    refine ⟨s!"Undefined local at slot {act.frame.basePtr + asUsize arg1}",
      { vm with cycles := vm.cycles + 1, stack := stack }, ?_⟩
    simp only [executeInstruction, EStateM.run_bind, run_arraySize (Int32.le_of_lt hsize),
      @run_pop { vm with cycles := vm.cycles + 1 } value _ hvalues,
      @run_pop { vm with cycles := vm.cycles + 1, stack := index :: stack } index stack rfl,
      run_arrayIndex hneg hindex,
      @run_currentLocalSlot program { vm with cycles := vm.cycles + 1, stack := stack } act.frame _
        act.info arg1 hraw hstack hinfo hslot hlt,
      @run_localArrayBase_error { vm with cycles := vm.cycles + 1, stack := stack } _ _ hcell]

/-- Every state of a run is safe: a run does not go on after loading an unset parameter. -/
theorem safe_of_reached (hverified : Verified program (verify program).possibleTraps)
    (hkeys : KeyedById program) (h : Reached program maxCycles trace vm) :
    Safe (reportSetting program) vm := by
  obtain ⟨vm₀, hstart, hreaches⟩ := h
  induction hreaches with
  | refl =>
    obtain ⟨vm₁, frame, info, hstart₁, hsafe⟩ :=
      safe_start (S := reportSetting program) maxCycles trace hverified hkeys
    obtain rfl := Sum.inl.inj (hstart.symm.trans hstart₁)
    exact ⟨_, hsafe⟩
  | @tail vm vm' _ hstep ih =>
    obtain ⟨act, hsafe⟩ := ih
    have hreads : ¬ReadsUnsetParameter program vm := by
      intro hreads
      obtain ⟨_, _, hend, -⟩ := step_of_reads hverified ⟨act, hsafe⟩ hreads
      rw [hstep] at hend
      cases hend
    obtain ⟨instr, -, hnext⟩ :=
      stepsSafely hverified hsafe (assumed_of_not_reads (.inr (.inr hreads)))
    rw [show step (reportSetting program).program vm = .inl vm' from hstep] at hnext
    exact ⟨_, hnext.choose_spec.1⟩

/-- **Exactness of the prediction.** Every run of a verified program ends as predicted if and only
if `UndefinedLocal` is a possible trap of the report, or elements of local arrays are read, or no
step loads an unset parameter of `main`. -/
theorem endsAsPredicted_iff (hkeys : KeyedById program) (hvalid : (verify program).valid = true)
    (maxCycles : Nat) (trace : Option (List TraceEvent)) :
    (∀ fuel halt last, runFull program fuel (init maxCycles trace) = some (halt, last) →
      EndsAsPredicted program maxCycles trace last halt) ↔
    .undefinedLocal ∈ (verify program).possibleTraps ∨ HasLocalArrayLoad program ∨
      ∀ vm, Reached program maxCycles trace vm → ¬ReadsUnsetParameter program vm := by
  have hverified := verified_of_valid hvalid
  obtain ⟨main, -, hstart⟩ := start_eq maxCycles trace hverified hkeys
  constructor
  · intro hends
    by_cases hlisted : .undefinedLocal ∈ (verify program).possibleTraps
    · exact .inl hlisted
    by_cases hload : HasLocalArrayLoad program
    · exact .inr (.inl hload)
    refine .inr (.inr fun vm hreached hreads ↦ ?_)
    obtain ⟨result, vm', hend, hfail, hcode⟩ :=
      step_of_reads hverified (safe_of_reached hverified hkeys hreached) hreads
    obtain ⟨vm₀, hstart₀, hreaches⟩ := hreached
    obtain ⟨fuel, hrun⟩ := Stepping.exists_run_of_reaches hreaches hend
    have hpredicted := hends fuel (.result result) vm' (by rw [runFull, hstart₀]; exact hrun)
    rcases hpredicted with hsuccess | hpredicted
    · rw [hfail] at hsuccess
      cases hsuccess
    · rw [hcode] at hpredicted
      exact hpredicted.elim hload hlisted
  · intro hcond fuel halt last hrun
    rcases exists_reached_of_runFull hrun with ⟨result, hstart', -⟩ | ⟨vm, hreached, hstep⟩
    · rw [hstart] at hstart'
      cases hstart'
    · obtain ⟨act, hsafe⟩ := safe_of_reached hverified hkeys hreached
      obtain ⟨instr, hinstr, hnext⟩ := stepsSafely hverified hsafe
        (assumed_of_not_reads (hcond.imp_right (Or.imp_right fun h ↦ h vm hreached)))
      rw [show step (reportSetting program).program vm = .inr (halt, last) from hstep] at hnext
      cases halt with
      | result result => exact hnext
      | panic => exact ⟨hnext.1, vm, instr, hreached, hstep, hinstr, hnext.2⟩

/-- `main` sets its parameter before it loads it. -/
def setsParameter : CompiledProgram where
  instructions := [⟨.loadConst, 5, 0⟩, ⟨.storeLocal, 0, 0⟩, ⟨.loadLocal, 0, 0⟩, ⟨.return, 0, 0⟩]
  functions := AList.singleton 0 ⟨"main", 0, 0, 1, 1⟩
  globals := ∅
  mainFuncId := 0
  constants := []

theorem keyed_setsParameter : KeyedById setsParameter := keyedById_of_entries (by decide)

theorem valid_setsParameter : (verify setsParameter).valid = true := by decide +kernel

theorem endsAsPredicted_setsParameter :
    (runFull setsParameter 5 (init 10 none)).isSome = true ∧
    ∀ fuel halt last, runFull setsParameter fuel (init 10 none) = some (halt, last) →
      EndsAsPredicted setsParameter 10 none last halt := by
  refine ⟨by decide +kernel, (endsAsPredicted_iff keyed_setsParameter valid_setsParameter 10 none).mpr
    (.inr (.inr fun vm hreached hreads ↦ ?_))⟩
  obtain ⟨-, frame, info, instr, hcall, hinfo, hinstr, hparam, hcell, hop⟩ := hreads
  -- from the load on, the cell of the parameter is set
  have hcheck := hreached.of_checked rfl (show Stepping.checked (step setsParameter)
    (fun vm ↦ vm.pc < 2 ∨ vm.locals[0]? = some 5 ∧ ∀ frame ∈ vm.callStack, frame.basePtr = 0) 4 _ =
      true by decide +kernel)
  rcases of_decide_eq_true hcheck with hpc | ⟨hset, hbase⟩
  · have hbefore : ∀ instr ∈ setsParameter.instructions.take 2, instr.opcode ≠ .loadLocal ∧
        instr.opcode ≠ .localArrayStore := by decide
    have hmem : instr ∈ setsParameter.instructions.take 2 :=
      List.mem_of_getElem? (List.getElem?_take_of_lt hpc ▸ hinstr)
    exact hop.elim (hbefore _ hmem).1 fun h ↦ (hbefore _ hmem).2 h.1
  · obtain rfl : info = ⟨"main", 0, 0, 1, 1⟩ :=
      congrArg (·.2) (List.mem_singleton.mp (AList.mem_lookup_iff.mp hinfo))
    obtain hslot : asUsize instr.arg1 = 0 := Nat.lt_one_iff.mp hparam
    rw [hslot, hbase frame (hcall ▸ List.mem_cons_self), hset] at hcell
    cases hcell

/-- `main` loads its own parameter. -/
def loadsParameter : CompiledProgram where
  instructions := [⟨.loadLocal, 0, 0⟩, ⟨.return, 0, 0⟩]
  functions := AList.singleton 0 ⟨"main", 0, 0, 1, 1⟩
  globals := ∅
  mainFuncId := 0
  constants := []

theorem keyed_loadsParameter : KeyedById loadsParameter := keyedById_of_entries (by decide)

theorem valid_loadsParameter : (verify loadsParameter).valid = true := by decide +kernel

theorem not_predicted_loadsParameter :
    ¬∀ program, KeyedById program → (verify program).valid = true →
      ∀ maxCycles trace fuel halt last,
        runFull program fuel (init maxCycles trace) = some (halt, last) →
          EndsAsPredicted program maxCycles trace last halt := by
  intro h
  have hrun : ∃ result vm, runFull loadsParameter 1 (init 10 none) = some (.result result, vm) ∧
      result.success = false ∧ result.trapCode = .undefinedLocal := ⟨_, _, rfl, rfl, rfl⟩
  obtain ⟨result, vm, hrun, hfail, hcode⟩ := hrun
  have hends := h loadsParameter keyed_loadsParameter valid_loadsParameter 10 none 1 _ vm hrun
  rcases hends with hsuccess | hpredicted
  · rw [hfail] at hsuccess
    cases hsuccess
  · rw [hcode] at hpredicted
    rcases hpredicted with ⟨instr, hmem, hop⟩ | hlisted
    · revert hop
      revert instr
      decide
    · revert hlisted
      decide +kernel

end Vm

end MiniLang
