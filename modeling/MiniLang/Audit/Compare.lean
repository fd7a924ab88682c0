import MiniLang.Jit.Equivalence
import MiniLang.Optimizer.Optimized
import MiniLang.Trace.Divergence

/-!
# Comparison of the backends

The report that runs a program on every backend and compares what can be observed: the success flag,
the value, the trap and the output. The first backend that ran is the reference; every other one that
differs from it is a mismatch.

On a compiled program all backends agree, if the reference machine stays within its limits: so much
has been proved of the garbage-collected machine, of the optimizer and of the machine code. The one
thing that has to be excluded is the negation that the machine code gets wrong.

The call of the machine code is a parameter, and so is the way `Debug` quotes a string.
-/

namespace MiniLang

open ByteMemory X86 Verifier Compiler

/-- Observable backend behavior used for equivalence checks. -/
structure BackendOutcome where
  success : Bool
  returnValue : Int
  trapCode : TrapCode
  output : List String
deriving DecidableEq

/-- Whether a backend executed, skipped, or failed before execution. -/
inductive BackendRunStatus
  | executed (outcome : BackendOutcome)
  | skipped (reason : String)
deriving DecidableEq

/-- One backend execution outcome. -/
structure BackendRun where
  name : String
  status : BackendRunStatus
deriving DecidableEq

/-- Full backend comparison output. -/
structure BackendComparisonReport where
  equivalent : Bool
  referenceBackend : Option String
  runs : List BackendRun
  mismatches : List String
deriving DecidableEq

namespace BackendOutcome

def ofResult (result : VmResult) : BackendOutcome :=
  ⟨result.success, result.returnValue, result.trapCode, result.output⟩

/-- There is no outcome where the machine panics. -/
def fromVm : VmHalt → Option BackendOutcome
  | .result result => some (ofResult result)
  | .panic => none

def fromGcVm : GcVmHalt → Option BackendOutcome
  | .result result => some ⟨result.success, result.returnValue, result.trapCode, result.output⟩
  | .panic => none

def fromJitReturn (returnValue : Int) : BackendOutcome := ⟨true, returnValue, .none, []⟩

end BackendOutcome

def BackendRun.executed (name : String) (outcome : BackendOutcome) : BackendRun :=
  ⟨name, .executed outcome⟩

def BackendRun.skipped (name reason : String) : BackendRun := ⟨name, .skipped reason⟩

/-- What the run says, if the backend executed. -/
def BackendRun.outcome? (run : BackendRun) : Option BackendOutcome :=
  match run.status with
  | .executed outcome => some outcome
  | .skipped _ => none

/-! ## The report -/

section

-- how `Debug` quotes a string
variable (debugString : String → String)

def formatOutcome (outcome : BackendOutcome) : String :=
  s!"success={outcome.success}, return={outcome.returnValue}, trap={outcome.trapCode.debug}, output={debugList debugString outcome.output}"

/-- The loop over the runs. -/
def outcomeMismatches (referenceName : String) (referenceOutcome : BackendOutcome) :
    List BackendRun → List String
  | [] => []
  | run :: runs =>
    match run.status with
    | .skipped _ => outcomeMismatches referenceName referenceOutcome runs
    | .executed outcome =>
      if outcome ≠ referenceOutcome then
        s!"{run.name} differs from {referenceName}: {formatOutcome debugString outcome} vs {formatOutcome debugString referenceOutcome}" ::
          outcomeMismatches referenceName referenceOutcome runs
      else outcomeMismatches referenceName referenceOutcome runs

def compareObservableOutcomes (runs : List BackendRun) : Option String × List String :=
  let reference := runs.findSome? fun run ↦ run.outcome?.map fun outcome ↦ (run.name, outcome)
  match reference with
  | none => (none, ["no backend executed"])
  | some (referenceName, referenceOutcome) =>
    (some referenceName, outcomeMismatches debugString referenceName referenceOutcome runs)

end

def backendReason (status : BackendStatus) : String :=
  status.reason.getD "backend is not eligible"

section

-- what a call of machine code returns
variable (native : List Byte → Int)

def runJitEligible (program : CompiledProgram) : BackendRun :=
  match JitCompiler.compile program with
  | none => .skipped "JIT" "JIT compiler rejected bytecode"
  | some code => .executed "JIT" (.fromJitReturn (native code))

def runJit (program : CompiledProgram) : BackendRun :=
  let status := (verify program).backendEligibility.jit
  if ¬status.eligible then .skipped "JIT" (backendReason status) else runJitEligible native program

variable (debugString : String → String)

/-- Compare available execution backends for a compiled program, for at most `fuel` instructions on
each machine. There is no report where a machine panics. -/
def compareBackends (fuel : Nat) (program : CompiledProgram) : Option BackendComparisonReport := do
  let vm ← (Vm.run program fuel (Vm.init MiniLang.maxCycles none)).bind BackendOutcome.fromVm
  let gcVm ← (GcVm.run program fuel (GcVm.init MiniLang.maxCycles none)).bind
    BackendOutcome.fromGcVm
  let optimized := (Optimizer.optimize {} program).1
  let optVm ← (Vm.run optimized fuel (Vm.init MiniLang.maxCycles none)).bind BackendOutcome.fromVm
  let runs := [.executed "VM" vm, .executed "GC VM" gcVm, .executed "Optimized VM" optVm,
    runJit native program]
  let (referenceBackend, mismatches) := compareObservableOutcomes debugString runs
  return ⟨mismatches = [], referenceBackend, runs, mismatches⟩

end

/-! ## The comparison -/

variable {debugString : String → String} {native : List Byte → Int} {source : List UInt8}
  {p : Program} {fuel : Nat} {result : VmResult} {reference : BackendOutcome} {name : String}
  {runs : List BackendRun} {origin : Word} {cpu : Cpu}

/-- The backend, if it executed, came to `reference`. -/
def Confirms (reference : BackendOutcome) (run : BackendRun) : Prop :=
  ∀ outcome, run.status = .executed outcome → outcome = reference

theorem confirms_executed {outcome : BackendOutcome} :
    Confirms reference (.executed name outcome) ↔ outcome = reference := by
  refine ⟨fun h ↦ h outcome rfl, fun h outcome' houtcome ↦ ?_⟩
  exact (BackendRunStatus.executed.inj houtcome) ▸ h

theorem confirms_skipped (reason : String) : Confirms reference (.skipped name reason) :=
  fun _ h ↦ BackendRunStatus.noConfusion h

/-- There is no mismatch exactly where all backends that executed came to the same outcome. -/
theorem outcomeMismatches_eq_nil_iff :
    outcomeMismatches debugString name reference runs = [] ↔
      ∀ run ∈ runs, Confirms reference run := by
  induction runs with
  | nil => simp [outcomeMismatches]
  | cons run runs ih =>
    obtain ⟨runName, status⟩ := run
    rw [List.forall_mem_cons, outcomeMismatches]
    cases status with
    | skipped reason =>
      rw [ih]
      exact (and_iff_right (confirms_skipped reason)).symm
    | executed outcome =>
      dsimp only
      by_cases hsame : outcome = reference
      · rw [if_neg (not_not_intro hsame), ih]
        exact (and_iff_right (confirms_executed.mpr hsame)).symm
      · rw [if_pos hsame]
        exact iff_of_false (List.cons_ne_nil _ _) fun h ↦ hsame (confirms_executed.mp h.1)

/-- The first run is the reference, if it executed. -/
theorem compareObservableOutcomes_cons :
    compareObservableOutcomes debugString (.executed name reference :: runs) =
      (some name, outcomeMismatches debugString name reference
        (.executed name reference :: runs)) := rfl

/-! ## Compiled programs -/

/-- The run is at no limit of the reference machine. -/
def AtNoLimit (result : VmResult) : Prop :=
  result.trapCode ≠ .cycleLimit ∧ result.trapCode ≠ .stackOverflow

/-- The calls of machine code follow the processor: what the code returns is what `native` says. -/
def Runs (native : List Byte → Int) (origin : Word) (cpu : Cpu) (code : List Byte) : Prop :=
  Called origin code cpu ∧ ∀ value, Returns origin code cpu value → native code = value

section

variable (h : Accepted source p) (hagree : p.DeclsAgree)
  (hrun : Vm.run (compile p) fuel (Vm.init MiniLang.maxCycles none) = some (.result result))
  (hlimit : AtNoLimit result)

include h hagree hrun hlimit

/-- The garbage-collected machine comes to the outcome of the reference machine. -/
theorem fromGcVm_compile :
    (GcVm.run (compile p) fuel (GcVm.init MiniLang.maxCycles none)).bind BackendOutcome.fromGcVm =
      some (.ofResult result) := by
  have hgc := ValueVm.run_gc_compile h hagree MiniLang.maxCycles MiniLang.gcThreshold none fuel
  have hvm := ValueVm.run_vm_compile h hagree (by decide : 0 < MiniLang.maxCycles) (by decide)
    none fuel
  have hvalue : ValueVm.run (compile p) none fuel (ValueVm.init MiniLang.maxCycles) =
      some (.result result) := by
    rcases @ValueVm.run_room (compile p) fuel maxLocalSlots (ValueVm.init MiniLang.maxCycles) with
      ⟨halt, hroom, result', _, rfl, -, hcode, -⟩ | heq
    · rw [← hvm, hrun] at hroom
      obtain rfl := VmHalt.result.inj (Option.some_inj.mp hroom)
      exact absurd hcode hlimit.2
    · rw [← heq, ← hvm, hrun]
  obtain ⟨halt, hhalt, hobserved⟩ := Option.map_eq_some_iff.mp (hgc.trans hvalue)
  have hhalt : GcVm.run (compile p) fuel (GcVm.init MiniLang.maxCycles none) = some halt := hhalt
  rw [hhalt]
  cases halt with
  | result gcResult =>
    obtain rfl := VmHalt.result.inj hobserved
    rfl
  | panic => cases hobserved

/-- The optimized program comes to the outcome of the program. -/
theorem fromVm_optimize (hvalid : (verify (compile p)).valid = true) :
    (Vm.run (Optimizer.optimize {} (compile p)).1 fuel (Vm.init MiniLang.maxCycles none)).bind
      BackendOutcome.fromVm = some (.ofResult result) := by
  have hverified := verified_of_valid hvalid
  suffices hopt : ∃ result', Vm.run (Optimizer.optimize {} (compile p)).1 fuel
      (Vm.init MiniLang.maxCycles none) = some (.result result') ∧
        ValueVm.SameOutcome result result' by
    obtain ⟨result', hrun', hsame⟩ := hopt
    rw [hrun', Option.bind_some, BackendOutcome.fromVm, BackendOutcome.ofResult, hsame.success,
      hsame.returnValue, hsame.trapCode, hsame.output]
    rfl
  cases hpasses : Optimizer.canRunSizeChangingPasses (compile p).instructions
      (compile p).functions with
  | true =>
    exact ValueVm.optimize_single h hagree (validate_of_verified hverified) hpasses {} (by decide)
      (by decide) none hrun hlimit
  | false => exact ValueVm.optimize_deadCode hverified hpasses {} none hrun

omit hagree hlimit

/-- The machine code comes to the outcome of the reference machine, where it is called. -/
theorem confirms_runJit (hneg : ¬NegatesLeastIn (compile p))
    (hnative : ∀ code, JitCompiler.compile (compile p) = some code → Runs native origin cpu code) :
    Confirms (.ofResult result) (runJit native (compile p)) := by
  rw [runJit]
  split
  · exact confirms_skipped _
  next heligible =>
  have heligible := of_not_not heligible
  obtain ⟨hvalid, htraps, hsingle, -⟩ := Vm.of_eligible heligible
  obtain ⟨-, main, body, hstraight⟩ := Vm.straight_of_eligible h.keyedById heligible
  have hverified := verified_of_valid hvalid
  have hsetup := Vm.setup_of_verified hverified hstraight
  have hvalidate := validate_of_verified hverified
  obtain ⟨code, hcode⟩ : ∃ code, JitCompiler.compile (compile p) = some code :=
    ⟨_, JitCompiler.compile_straight hstraight hsingle⟩
  obtain ⟨hcalled, hreturns⟩ := hnative _ hcode
  obtain ⟨value, stack, locals, hbody⟩ :=
    Vm.exists_run_of_stored hverified htraps h.keyedById hstraight h.parametersStored
  -- what the reference machine returns
  obtain ⟨fuel', result', vm, hfull, hend⟩ := Vm.runFull_straight hsetup hvalidate none
  rw [hbody] at hend
  obtain ⟨hsuccess, htrap, hvalue, houtput⟩ := hend
  obtain ⟨⟨_, vm'⟩, hfull', rfl⟩ := Option.map_eq_some_iff.mp hrun
  obtain ⟨hsame, -⟩ := Prod.mk.inj (Vm.runFull_unique hfull hfull')
  obtain rfl := VmHalt.result.inj hsame
  -- what the machine code returns
  have hjit : native code = value := by
    apply hreturns
    apply returns_of_run hstraight hsingle hsetup.localCount_le hbody ?_ hcode hcalled
    rintro i s instr hi htake ⟨hop, hleast⟩
    have hlt := (List.getElem?_eq_some_iff.mp hi).1
    obtain ⟨vm, hreached, hvm⟩ := Vm.reached_of_run hsetup hvalidate none hlt.le htake
    refine hneg ⟨vm, instr, hreached, ?_, hop, ?_⟩
    · rw [hvm.pc_eq, hstraight.getElem? hi]
    · rw [← hvm.scalars_eq] at hleast
      exact hleast
  rw [runJitEligible, hcode]
  dsimp only
  rw [confirms_executed, hjit, BackendOutcome.fromJitReturn, BackendOutcome.ofResult, hsuccess,
    htrap, hvalue, houtput]

end

/-- The report on a compiled program. -/
theorem compareBackends_compile (h : Accepted source p) (hagree : p.DeclsAgree)
    (hvalid : (verify (compile p)).valid = true)
    (hrun : Vm.run (compile p) fuel (Vm.init MiniLang.maxCycles none) = some (.result result))
    (hlimit : AtNoLimit result) (hneg : ¬NegatesLeastIn (compile p))
    (hnative : ∀ code, JitCompiler.compile (compile p) = some code → Runs native origin cpu code) :
    ∃ runs, compareBackends native debugString fuel (compile p) =
        some ⟨true, some "VM", .executed "VM" (.ofResult result) :: runs, []⟩ ∧
      ∀ run ∈ BackendRun.executed "VM" (.ofResult result) :: runs,
        Confirms (.ofResult result) run := by
  have hconfirms : ∀ run ∈ [BackendRun.executed "VM" (.ofResult result),
      .executed "GC VM" (.ofResult result), .executed "Optimized VM" (.ofResult result),
      runJit native (compile p)], Confirms (.ofResult result) run := by
    simp only [List.forall_mem_cons, confirms_executed, true_and]
    exact ⟨confirms_runJit h hrun hneg hnative, List.forall_mem_nil _⟩
  have hnone := (@outcomeMismatches_eq_nil_iff debugString _ "VM" _).mpr hconfirms
  refine ⟨_, ?_, hconfirms⟩
  rw [compareBackends]
  dsimp only
  rw [fromGcVm_compile h hagree hrun hlimit, fromVm_optimize h hagree hrun hlimit hvalid, hrun]
  dsimp only [Option.bind_some, BackendOutcome.fromVm, bind, pure]
  rw [compareObservableOutcomes_cons, hnone]
  rfl

/-- **All backends agree on a compiled program**, if the reference machine is at no limit and
the run does not negate the least 32-bit value. -/
theorem compareBackends_equivalent (h : Accepted source p) (hagree : p.DeclsAgree)
    (hvalid : (verify (compile p)).valid = true)
    (hrun : Vm.run (compile p) fuel (Vm.init MiniLang.maxCycles none) = some (.result result))
    (hlimit : AtNoLimit result) (hneg : ¬NegatesLeastIn (compile p))
    (hnative : ∀ code, JitCompiler.compile (compile p) = some code → Runs native origin cpu code) :
    ∃ report, compareBackends native debugString fuel (compile p) = some report ∧
      report.equivalent = true ∧ report.mismatches = [] ∧ report.referenceBackend = some "VM" ∧
      ∀ run ∈ report.runs, Confirms (.ofResult result) run := by
  obtain ⟨runs, hreport, hconfirms⟩ := compareBackends_compile h hagree hvalid hrun hlimit hneg
    hnative
  exact ⟨_, hreport, rfl, rfl, rfl, hconfirms⟩

/-- What a call of code at 4096 returns. -/
def sampleNative (code : List Byte) : Int :=
  match Stepping.run (X86.step 4096 code) 100 sampleCpu with
  | some (.left cpu) => (cpu.machine.regs .rax).toInt
  | _ => 0

theorem runs_sampleNative {program : CompiledProgram} {code : List Byte} {value : Int}
    (h : sampleValue program = some value) (hcode : JitCompiler.compile program = some code)
    (hlength : code.length ≤ 2 ^ 16) : Runs sampleNative 4096 sampleCpu code := by
  refine ⟨called_sample hlength, fun value' hreturns ↦ ?_⟩
  obtain ⟨fuel, cpu, hrun, -, -, -, rfl⟩ := hreturns
  rw [sampleValue, hcode] at h
  dsimp only [bind, Option.bind, pure] at h
  split at h
  · next cpu' hrun' =>
    obtain rfl := Outcome.left.inj (Stepping.run_unique hrun hrun')
    rw [sampleNative, hrun']
  · cases h

theorem not_negatesLeast_product : ¬NegatesLeastIn (compile ValueVm.productProgram) := by
  rintro ⟨vm, instr, -, hinstr, hop, -⟩
  have hnone : ∀ instr ∈ (compile ValueVm.productProgram).instructions, instr.opcode ≠ .neg := by
    decide +kernel
  exact hnone instr (List.mem_of_getElem? hinstr) hop

theorem runs_product (code : List Byte)
    (hcode : JitCompiler.compile (compile ValueVm.productProgram) = some code) :
    Runs sampleNative 4096 sampleCpu code := by
  have hruns : sampleValue (compile ValueVm.productProgram) = some 42 ∧
      (JitCompiler.compile (compile ValueVm.productProgram)).all (·.length ≤ 2 ^ 16) = true := by
    decide +kernel
  obtain ⟨hvalue, hsmall⟩ := hruns
  rw [hcode] at hsmall
  exact runs_sampleNative hvalue hcode (of_decide_eq_true hsmall)

theorem compareBackends_equivalent_product : ∃ report,
    compareBackends sampleNative String.quote 20 (compile ValueVm.productProgram) = some report ∧
      report.equivalent = true ∧ report.mismatches = [] ∧ report.referenceBackend = some "VM" ∧
      ∀ run ∈ report.runs, Confirms (.ofResult ValueVm.productResult) run :=
  compareBackends_equivalent ValueVm.accepted_product ValueVm.product_declsAgree
    ValueVm.valid_product (by decide +kernel) ⟨TrapCode.noConfusion, TrapCode.noConfusion⟩
    not_negatesLeast_product runs_product

end MiniLang
