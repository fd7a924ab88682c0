import MiniLang.Audit.Compare
import MiniLang.Oracle.Agreement

/-!
# Comparison with the oracle

The report that runs a program on the interpreter of syntax trees and on every backend. A backend
that executed and differs from the interpreter is a mismatch, whether or not the backends agree with
each other.

Where the backends do agree, no single backend is to blame: either none of them differs from the
interpreter or all that executed do. On a compiled program that succeeds only the interpreter's own
limit of ticks is left as a reason.
-/

namespace MiniLang

open ByteMemory X86 Verifier Compiler

structure OracleComparisonReport where
  equivalent : Bool
  oracle : OracleOutcome
  backendReport : BackendComparisonReport
  mismatches : List String
deriving DecidableEq

/-- A backend came to the outcome of the interpreter. -/
def OracleOutcome.Matches (oracle : OracleOutcome) (outcome : BackendOutcome) : Prop :=
  outcome.success = oracle.success ∧ outcome.returnValue = oracle.returnValue ∧
    outcome.trapCode = oracle.trapCode ∧ outcome.output = oracle.output

instance (oracle : OracleOutcome) (outcome : BackendOutcome) : Decidable (oracle.Matches outcome) :=
  inferInstanceAs (Decidable (_ ∧ _ ∧ _ ∧ _))

section

variable (debugString : String → String)

def OracleOutcome.summary (oracle : OracleOutcome) : String :=
  s!"success={oracle.success}, return={oracle.returnValue}, trap={oracle.trapCode.debug}, output={debugList debugString oracle.output}"

/-- The loop over the runs. -/
def oracleMismatches (oracle : OracleOutcome) : List BackendRun → List String
  | [] => []
  | run :: runs =>
    match run.status with
    | .skipped _ => oracleMismatches oracle runs
    | .executed outcome =>
      if ¬oracle.Matches outcome then
        s!"{run.name} differs from AST oracle: {formatOutcome debugString outcome} vs {oracle.summary debugString}" ::
          oracleMismatches oracle runs
      else oracleMismatches oracle runs

/-- `compare_ast_oracle`, for at most `fuel` instructions on each machine. There is no report where
the interpreter or a machine panics. -/
def compareAstOracle (native : List Byte → Int) (fuel : Nat) (program : Program)
    (compiled : CompiledProgram) : Option OracleComparisonReport := do
  let oracle ← AstOracle.run program
  let backendReport ← compareBackends native debugString fuel compiled
  let mismatches := oracleMismatches debugString oracle backendReport.runs
  return ⟨backendReport.equivalent && mismatches = [], oracle, backendReport, mismatches⟩

end

variable {debugString : String → String} {native : List Byte → Int} {source : List UInt8}
  {p : Program} {fuel : Nat} {result : VmResult} {reference : BackendOutcome}
  {runs : List BackendRun} {origin : Word} {cpu : Cpu} {oracle : OracleOutcome}

/-- The outcomes of the backends that executed. -/
def executedOutcomes (runs : List BackendRun) : List BackendOutcome :=
  runs.filterMap BackendRun.outcome?

/-- Where the backends agree, all that executed are blamed, or none. -/
theorem length_oracleMismatches (hruns : ∀ run ∈ runs, Confirms reference run) :
    (oracleMismatches debugString oracle runs).length =
      if oracle.Matches reference then 0 else (executedOutcomes runs).length := by
  induction runs with
  | nil => exact (ite_self 0).symm
  | cons run runs ih =>
    obtain ⟨hrun, hrest⟩ := List.forall_mem_cons.mp hruns
    obtain ⟨runName, status⟩ := run
    rw [oracleMismatches]
    cases status with
    | skipped reason => exact ih hrest
    | executed outcome =>
      obtain rfl := hrun outcome rfl
      have ih := ih hrest
      dsimp only
      by_cases hmatches : oracle.Matches outcome
      · rw [if_neg (not_not_intro hmatches), if_pos hmatches]
        rwa [if_pos hmatches] at ih
      · rw [if_neg hmatches] at ih
        rw [if_pos hmatches, if_neg hmatches, List.length_cons, ih]
        rfl

/-- The report on the interpreter, where the backends agree. -/
theorem compareAstOracle_of_confirms {report : BackendComparisonReport}
    (hreport : compareBackends native debugString fuel (compile p) = some report)
    (hequivalent : report.equivalent = true) (hruns : ∀ run ∈ report.runs, Confirms reference run)
    (hexecuted : executedOutcomes report.runs ≠ []) (horacle : AstOracle.run p = some oracle) :
    ∃ oracleReport, compareAstOracle debugString native fuel p (compile p) = some oracleReport ∧
      oracleReport.backendReport = report ∧ oracleReport.oracle = oracle ∧
      (oracleReport.equivalent = true ↔ oracle.Matches reference) := by
  refine ⟨⟨report.equivalent && oracleMismatches debugString oracle report.runs = [], oracle,
    report, oracleMismatches debugString oracle report.runs⟩, ?_, rfl, rfl, ?_⟩
  · rw [compareAstOracle, horacle, hreport]
    rfl
  · have hlength := @length_oracleMismatches debugString _ _ oracle hruns
    dsimp only
    rw [hequivalent, Bool.true_and, decide_eq_true_iff, ← List.length_eq_zero_iff, hlength]
    by_cases hmatches : oracle.Matches reference
    · rw [if_pos hmatches]
      exact iff_of_true rfl hmatches
    · rw [if_neg hmatches]
      exact iff_of_false (fun h ↦ hexecuted (List.length_eq_zero_iff.mp h)) hmatches

/-- The oracle comes to the outcome of a machine that succeeds, unless it uses up its ticks. -/
theorem exists_oracle_of_success (h : Accepted source p) (hagree : p.DeclsAgree)
    (hquiet : p.NoMainCalls) (hreturns : Vm.Returns (compile p) MiniLang.maxCycles result)
    (hsuccess : result.success = true) : ∃ oracle, AstOracle.run p = some oracle ∧
      (oracle.Matches (.ofResult result) ↔ oracle.trapCode ≠ .cycleLimit) := by
  obtain ⟨hcode, ⟨oracle, hok, houtput⟩ | ⟨e, oracle, htrap, message, rfl⟩⟩ :=
    AstOracle.runOf_of_success h hagree hquiet hreturns hsuccess
  · refine ⟨⟨true, result.returnValue, .none, "", oracle.output⟩, ?_, ?_⟩
    · rw [AstOracle.run_eq_outcome, hok]
      rfl
    · exact iff_of_true ⟨hsuccess, rfl, hcode, houtput.symm⟩ TrapCode.noConfusion
  · refine ⟨⟨false, 0, .cycleLimit, message, oracle.output⟩, ?_, ?_⟩
    · rw [AstOracle.run_eq_outcome, htrap]
      rfl
    · refine iff_of_false (fun hmatches ↦ ?_) (not_not_intro rfl)
      exact Bool.noConfusion (hsuccess.symm.trans hmatches.1)

/-- **The oracle confirms the backends on a compiled program that succeeds**, unless it uses up its
ticks. -/
theorem compareAstOracle_compile (h : Accepted source p) (hagree : p.DeclsAgree)
    (hquiet : p.NoMainCalls) (hvalid : (verify (compile p)).valid = true)
    (hrun : Vm.run (compile p) fuel (Vm.init MiniLang.maxCycles none) = some (.result result))
    (hsuccess : result.success = true) (hneg : ¬NegatesLeastIn (compile p))
    (hnative : ∀ code, JitCompiler.compile (compile p) = some code → Runs native origin cpu code) :
    ∃ report, compareAstOracle debugString native fuel p (compile p) = some report ∧
      AstOracle.run p = some report.oracle ∧ report.backendReport.equivalent = true ∧
      (report.equivalent = true ↔ report.oracle.trapCode ≠ .cycleLimit) := by
  have hlimit : AtNoLimit result := by
    rw [AtNoLimit, (AstOracle.runOf_of_success h hagree hquiet ⟨fuel, hrun⟩ hsuccess).1]
    exact ⟨TrapCode.noConfusion, TrapCode.noConfusion⟩
  obtain ⟨runs, hreport, hconfirms⟩ := @compareBackends_compile debugString native source p fuel
    result origin cpu h hagree hvalid hrun hlimit hneg hnative
  have hexecuted : executedOutcomes (.executed "VM" (.ofResult result) :: runs) ≠ [] :=
    List.cons_ne_nil _ _
  obtain ⟨oracle, horacle, hmatches⟩ :=
    exists_oracle_of_success h hagree hquiet ⟨fuel, hrun⟩ hsuccess
  obtain ⟨report, hcompare, hbackends, rfl, hequivalent⟩ :=
    compareAstOracle_of_confirms hreport rfl hconfirms hexecuted horacle
  exact ⟨report, hcompare, horacle, by rw [hbackends], hequivalent.trans hmatches⟩

/-- The oracle has ticks enough for a product. -/
theorem compareAstOracle_compile_product : ∃ report,
    compareAstOracle String.quote sampleNative 20 ValueVm.productProgram
      (compile ValueVm.productProgram) = some report ∧
      report.oracle = ⟨true, 42, .none, "", []⟩ ∧ report.backendReport.equivalent = true ∧
      report.equivalent = true := by
  have hruns : Vm.run (compile ValueVm.productProgram) 20 (Vm.init MiniLang.maxCycles none) =
        some (.result ValueVm.productResult) ∧
      AstOracle.run ValueVm.productProgram = some ⟨true, 42, .none, "", []⟩ := by
    decide +kernel
  have hquiet : ValueVm.productProgram.NoMainCalls := by
    refine ⟨fun func hfunc ↦ ?_, List.forall_mem_nil _⟩
    rw [List.mem_singleton.mp hfunc]
    decide
  obtain ⟨report, hreport, horacle, hbackends, hequivalent⟩ :=
    @compareAstOracle_compile String.quote _ _ _ _ _ _ _ ValueVm.accepted_product
      ValueVm.product_declsAgree hquiet ValueVm.valid_product hruns.1 rfl not_negatesLeast_product
      runs_product
  have hvalue := Option.some_inj.mp (horacle.symm.trans hruns.2)
  refine ⟨report, hreport, hvalue, hbackends, hequivalent.mpr ?_⟩
  rw [hvalue]
  exact TrapCode.noConfusion

end MiniLang
