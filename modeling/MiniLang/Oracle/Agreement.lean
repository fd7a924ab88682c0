import MiniLang.Machine.Retuned
import MiniLang.Oracle.Budget
import MiniLang.Oracle.Programs
import MiniLang.Oracle.Variants

/-!
# The machine and the oracle agree

The simulation speaks of a machine without a limit of cycles and of an oracle that chooses as the
machine does. Here the limits come back, and the choices of the source: compiled programs that
succeed do what the oracle does, and where the two disagree, the reason is known.

## The chain of runs

A run of the machine with its limit is cut off or is the run without one (`returns_cases`). The run
without a limit is simulated against the oracle with the machine's choices, `late`, given enough
ticks (`LateRun`). That oracle is compared with the source's choices, `early`, through `between`,
which refuses where the order of an index check and a value would show. A success of the machine
goes through the whole chain, because neither a refusal nor a limit can stand behind it.

## Enough ticks

The comparison needs an oracle that does not stop before the machine does. For a run of the machine
that took `n` cycles, `ticksFor` gives a limit of ticks that covers it by the rate of the setting;
the oracle of the source has a limit of its own, and so it succeeds alike or uses up its ticks.
-/

namespace MiniLang

open Compiler

/-! ## Runs of the machine -/

namespace Vm

variable {program : CompiledProgram} {vm vm' : Vm} {limit : Nat} {result result' : VmResult}

/-- What `Vm::run` returns, with a limit of cycles. -/
def Returns (program : CompiledProgram) (limit : Nat) (result : VmResult) : Prop :=
  ∃ fuel, run program fuel (init limit none) = some (.result result)

theorem Halts.unique (h : Halts program vm result) (h' : Halts program vm result') :
    result = result' := by
  obtain ⟨fuel, final, hrun⟩ := h
  obtain ⟨fuel', final', hrun'⟩ := h'
  exact VmHalt.result.inj (congrArg Prod.fst (Stepping.run_unique hrun hrun'))

/-- A run that ends takes all the cycles that it gets to. -/
theorem Halts.cycles_ge (h : Halts program vm result)
    (hreach : Stepping.Reaches (step program) vm vm') : vm'.cycles ≤ result.cycles := by
  obtain ⟨fuel, final, hrun⟩ := h
  obtain ⟨last, hlast, hend⟩ := Stepping.exists_reaches_of_run hrun
  rcases hreach.comparable hlast with h | h
  · exact (cycles_le_of_reaches h).trans (cycles_of_end hend).1
  · rw [h.eq_of_end hend]
    exact (cycles_of_end hend).1

end Vm

variable {text : List UInt8} {p : Program}

/-- The preflight checks pass compiled programs that are not too long. -/
theorem start_compile (h : Accepted text p)
    (hcount : (compile p).instructions.length ≤ maxInstructions) (limit : Nat) :
    Vm.start (compile p) (Vm.init limit none) = .inl (Vm.limited limit (AstOracle.startState p)) := by
  obtain ⟨main, hmain, -⟩ := h.exists_main
  have hslots := h.functionsOk.slots
  obtain ⟨slots, hglobals, hle⟩ := requiredGlobalSlots_le h.globalOk (Nat.zero_le maxGlobalSlots)
  have hvalid : validateFunctions (compile p).functions.values = .ok () := by
    refine validateFunctions_eq_ok fun info hmem ↦ ?_
    obtain ⟨⟨id, _⟩, hentry, rfl⟩ := List.mem_map.mp hmem
    exact hslots id _ (AList.mem_lookup_iff.mpr hentry)
  have hvalidate : (compile p).validate = .ok () := by
    rw [CompiledProgram.validate, if_neg (Nat.not_lt.mpr hcount), hvalid, hglobals]
    exact if_neg (Nat.not_lt.mpr hle)
  have hlookup := h.lookup_iff.mpr ⟨main, hmain, rfl⟩
  have hcount := (hslots _ _ hlookup).2
  rw [Vm.start, hvalidate, hlookup]
  dsimp only
  rw [if_neg (Nat.not_lt.mpr hcount)]
  rfl

/-- **What the machine returns** for a compiled program: its run has been cut off, or it is the run
without a limit. -/
theorem returns_cases (h : Accepted text p)
    (hcount : (compile p).instructions.length ≤ maxInstructions) {limit : Nat} {result : VmResult}
    (hreturns : Vm.Returns (compile p) limit result) :
    Vm.Passes (compile p) limit (AstOracle.startState p) ∧ result.success = false ∧
        result.trapCode = .cycleLimit ∨
      Vm.Halts (compile p) (AstOracle.startState p) result ∧ (0 < limit → result.cycles ≤ limit) := by
  obtain ⟨fuel, hrun⟩ := hreturns
  rw [Vm.run, Vm.runFull, start_compile h hcount limit] at hrun
  obtain ⟨⟨halt, final⟩, hrun, hhalt⟩ := Option.map_eq_some_iff.mp hrun
  obtain rfl : halt = .result result := hhalt
  rcases Nat.eq_zero_or_pos limit with rfl | hlimit
  · exact .inr ⟨⟨fuel, final, hrun⟩, fun h ↦ absurd h (Nat.lt_irrefl 0)⟩
  · rcases Vm.run_limited_cases rfl hlimit (Nat.zero_le limit) hrun with
      ⟨hpasses, result', heq, hfailed, hcode⟩ | ⟨⟨final', hrun'⟩, hcycles⟩
    · obtain rfl := VmHalt.result.inj heq
      exact .inl ⟨hpasses, hfailed, hcode⟩
    · exact .inr ⟨⟨fuel, final', hrun'⟩, fun _ ↦ hcycles result rfl⟩

/-- A program too long to start does not succeed. -/
theorem count_le_of_success {limit : Nat} {result : VmResult} {program : CompiledProgram}
    (hreturns : Vm.Returns program limit result) (hsuccess : result.success = true) :
    program.instructions.length ≤ maxInstructions := by
  by_contra hcount
  obtain ⟨fuel, hrun⟩ := hreturns
  rw [Vm.run, Vm.runFull, Vm.start, CompiledProgram.validate, if_pos (Nat.lt_of_not_le hcount)] at hrun
  cases hrun
  cases hsuccess

namespace AstOracle

/-! ## Runs of the oracle -/

/-- The run of a variant, with all the fuel that it needs. -/
def runOf (rules : Rules) (p : Program) : EStateM.Result Stop AstOracle Int :=
  (execute rules p (rules.maxCycles + 1)).run (new p)

theorem run_eq_outcome (p : Program) : run p = outcome (runOf (early MiniLang.maxCycles) p) := rfl

theorem runOf_ne_outOfFuel {rules : Rules} {e : Stop} {oracle : AstOracle}
    (h : runOf rules p = .error e oracle) : e ≠ .outOfFuel :=
  execute_ne_outOfFuel (Nat.lt_succ_self _) h

/-- The two runs are alike. -/
theorem alike_late (limit : Nat) (p : Program) :
    Alike lateTolerance (new p).output (runOf (late limit) p)
      (runOf (between limit) p) :=
  compares_execute late_comparable p (limit + 1) (limit + 1) (new p)

theorem alike_early {limit limit' : Nat} (hlimit : limit ≤ limit') (p : Program) :
    Alike (earlyTolerance limit limit') (new p).output (runOf (early limit) p)
      (runOf (between limit') p) :=
  compares_execute (early_comparable hlimit) p (limit + 1) (limit' + 1) (new p)

theorem late_ne_refused {limit : Nat} {e : Stop} {oracle : AstOracle}
    (h : runOf (late limit) p = .error e oracle) : e ≠ .refused := by
  rintro rfl
  have halike := alike_late limit p
  rw [h] at halike
  generalize hr : runOf (between limit) p = r at halike
  cases halike with
  | error halike =>
    rcases halike with ⟨hpanic, -⟩ | ⟨code, ⟨message, htrap⟩, -⟩
    · cases hpanic
    · cases htrap
  | left hleft => cases hleft
  | right hright oracle' _ => exact absurd hright (runOf_ne_outOfFuel hr)

theorem fits_late (h : Accepted text p) (hagree : p.DeclsAgree) (hquiet : p.NoMainCalls)
    (hcount : (compile p).instructions.length ≤ maxInstructions) (limit : Nat) :
    (settingOf p (late limit)).Fits text where
  accepted := h
  agree := hagree
  quiet := hquiet
  small := hcount.trans_lt (by decide)
  late := rfl
  overflows := rfl
  pays := pays_settingOf p _

/-- The machine's run, next to that of the oracle with the machine's choices. -/
inductive LateRun (p : Program) (limit : Nat) : EStateM.Result Stop AstOracle Int → Prop
  | short (r : EStateM.Result Stop AstOracle Int) {result : VmResult} (resource : Vm.Resource)
    (hhalts : Vm.Halts (compile p) (startState p) result) (hsuccess : result.success = false)
    (hcode : result.trapCode = resource.trapCode) (hlacking : resource.Lacking result)
    (hcycles : result.cycles ≤ 3 * limit) : LateRun p limit r
  | ok (value : Int) {oracle : AstOracle} {result : VmResult}
    (hhalts : Vm.Halts (compile p) (startState p) result) (hsuccess : result.success = true)
    (hvalue : result.returnValue = value) (hcode : result.trapCode = .none)
    (houtput : result.output = oracle.output) (hcycles : result.cycles ≤ 3 * limit) :
    LateRun p limit (.ok value oracle)
  | trap {code : TrapCode} (message : String) {oracle : AstOracle} {result : VmResult}
    (hlimit : code ≠ .cycleLimit) (hhalts : Vm.Halts (compile p) (startState p) result)
    (hsuccess : result.success = false) (hcode : result.trapCode = code)
    (houtput : result.output = oracle.output) (hcycles : result.cycles ≤ 3 * limit) :
    LateRun p limit (.error (.trap code message) oracle)
  | cycleLimit (message : String) (oracle : AstOracle) {vm : Vm}
    (hreach : Stepping.Reaches (Vm.step (compile p)) (startState p) vm)
    (hcycles : limit < (settingOf p (late limit)).credit +
      (settingOf p (late limit)).rate * vm.cycles) :
    LateRun p limit (.error (.trap .cycleLimit message) oracle)

theorem lateRun (h : Accepted text p) (hagree : p.DeclsAgree) (hquiet : p.NoMainCalls)
    (hcount : (compile p).instructions.length ≤ maxInstructions) (limit : Nat) :
    LateRun p limit (runOf (late limit) p) := by
  have hfits := fits_late h hagree hquiet hcount limit
  have hsim := sim_execute hfits rfl rfl rfl (limit + 1)
  rcases hsim with ⟨result, resource, output, htraps, hlacking, hcycles⟩ | hmatched
  · exact .short _ resource htraps.ends htraps.success htraps.trapCode hlacking hcycles
  change Matched _ _ _ (runOf (late limit) p) at hmatched
  cases hr : runOf (late limit) p with
  | ok value oracle =>
    rw [hr] at hmatched
    obtain ⟨vm, hreach, result, hsucceeds⟩ := hmatched
    exact .ok value (hsucceeds.ends.of_reaches hreach) hsucceeds.success hsucceeds.returnValue
      hsucceeds.trapCode hsucceeds.output_eq hsucceeds.pace
  | error e oracle =>
    rw [hr] at hmatched
    cases e with
    | trap code message =>
      rw [Matched] at hmatched
      split at hmatched
      · next hcode =>
        subst hcode
        obtain ⟨vm, hreach, hcycles⟩ := hmatched
        exact .cycleLimit message oracle hreach hcycles
      · next hcode =>
        obtain ⟨result, htraps, hcycles⟩ := hmatched
        exact .trap message hcode htraps.ends htraps.success htraps.trapCode htraps.output_eq hcycles
    | panic => exact hmatched.elim
    | refused => exact absurd rfl (late_ne_refused hr)
    | outOfFuel => exact absurd rfl (runOf_ne_outOfFuel hr)

/-! ## Successful runs -/

section

variable {limit : Nat} {value : Int} {oracle : AstOracle} {e : Stop}

/-- Where the machine's choices lead to success, so do those between. -/
theorem between_of_late_ok (h : runOf (late limit) p = .ok value oracle) :
    runOf (between limit) p = .ok value oracle := by
  have halike := alike_late limit p
  rw [h] at halike
  generalize hr : runOf (between limit) p = r at halike
  cases halike with
  | ok _ _ => rfl
  | right hright oracle' _ => exact absurd hright (runOf_ne_outOfFuel hr)

theorem early_of_between_ok {limit' : Nat} (hlimit : limit ≤ limit')
    (h : runOf (between limit') p = .ok value oracle) :
    runOf (early limit) p = .ok value oracle ∨
      ∃ e oracle', runOf (early limit) p = .error e oracle' ∧ e.Is .cycleLimit := by
  have halike := alike_early hlimit p
  rw [h] at halike
  generalize hr : runOf (early limit) p = r at halike
  cases halike with
  | ok _ _ => exact .inl rfl
  | left hleft oracle' _ =>
    rcases hleft with hfuel | ⟨-, hcut⟩
    · exact absurd hfuel (runOf_ne_outOfFuel hr)
    · exact .inr ⟨_, oracle', rfl, hcut⟩

end

/-- Enough ticks to see the end of a run of the machine. -/
def ticksFor (p : Program) (cycles : Nat) : Nat :=
  MiniLang.maxCycles + (settingOf p source).credit + (settingOf p source).rate * cycles

theorem maxCycles_le_ticksFor (p : Program) (cycles : Nat) :
    MiniLang.maxCycles ≤ ticksFor p cycles :=
  (Nat.le_add_right ..).trans (Nat.le_add_right ..)

/-- What the machine returns, next to a run of the oracle with enough ticks. -/
inductive LateEnd (result : VmResult) : EStateM.Result Stop AstOracle Int → Prop
  | short (r : EStateM.Result Stop AstOracle Int) (resource : Vm.Resource)
    (hsuccess : result.success = false) (hcode : result.trapCode = resource.trapCode)
    (hlacking : resource.Lacking result) : LateEnd result r
  | ok {oracle : AstOracle} (hsuccess : result.success = true) (hcode : result.trapCode = .none)
    (houtput : result.output = oracle.output) : LateEnd result (.ok result.returnValue oracle)
  | trap (message : String) {oracle : AstOracle} (hlimit : result.trapCode ≠ .cycleLimit)
    (hsuccess : result.success = false) (houtput : result.output = oracle.output) :
    LateEnd result (.error (.trap result.trapCode message) oracle)

theorem LateRun.ended {limit : Nat} {result : VmResult} {r : EStateM.Result Stop AstOracle Int}
    (h : LateRun p limit r) (hhalts : Vm.Halts (compile p) (startState p) result)
    (hlimit : ticksFor p result.cycles ≤ limit) : LateEnd result r := by
  cases h with
  | short _ resource hhalts' hsuccess hcode hlacking =>
    obtain rfl := hhalts.unique hhalts'
    exact .short _ resource hsuccess hcode hlacking
  | ok value hhalts' hsuccess hvalue hcode houtput =>
    obtain rfl := hhalts.unique hhalts'
    subst hvalue
    exact .ok hsuccess hcode houtput
  | trap message hne hhalts' hsuccess hcode houtput =>
    obtain rfl := hhalts.unique hhalts'
    subst hcode
    exact .trap message hne hsuccess houtput
  | cycleLimit message oracle hreach hcycles =>
    have hle := Nat.mul_le_mul_left (settingOf p source).rate (hhalts.cycles_ge hreach)
    have hcycles : limit < (settingOf p source).credit + (settingOf p source).rate * _ := hcycles
    rw [ticksFor] at hlimit
    omega

/-- The oracle's own run, where the machine succeeds. -/
theorem runOf_of_success (h : Accepted text p) (hagree : p.DeclsAgree) (hquiet : p.NoMainCalls)
    {limit : Nat} {result : VmResult} (hreturns : Vm.Returns (compile p) limit result)
    (hsuccess : result.success = true) : result.trapCode = .none ∧
      ((∃ oracle, runOf (early MiniLang.maxCycles) p = .ok result.returnValue oracle ∧
        oracle.output = result.output) ∨
      ∃ e oracle, runOf (early MiniLang.maxCycles) p = .error e oracle ∧ e.Is .cycleLimit) := by
  have hcount := count_le_of_success hreturns hsuccess
  have hhalts : Vm.Halts (compile p) (startState p) result := by
    rcases returns_cases h hcount hreturns with ⟨-, hfailed, -⟩ | ⟨hhalts, -⟩
    · rw [hsuccess] at hfailed
      cases hfailed
    · exact hhalts
  have hended := (lateRun h hagree hquiet hcount (ticksFor p result.cycles)).ended hhalts le_rfl
  generalize hlate : runOf (late (ticksFor p result.cycles)) p = r at hended
  cases hended with
  | short _ _ hfailed =>
    rw [hsuccess] at hfailed
    cases hfailed
  | @ok oracle _ hcode houtput =>
    refine ⟨hcode, (early_of_between_ok (maxCycles_le_ticksFor p result.cycles)
      (between_of_late_ok hlate)).imp_left fun hrun ↦ ?_⟩
    exact ⟨oracle, hrun, houtput.symm⟩
  | trap _ _ hfailed =>
    rw [hsuccess] at hfailed
    cases hfailed

/-- **Successful runs.** Where a compiled program succeeds, the oracle does so with the same value
and output, or it uses up its ticks. -/
theorem run_of_success (h : Accepted text p) (hagree : p.DeclsAgree) (hquiet : p.NoMainCalls)
    {limit : Nat} {result : VmResult} (hreturns : Vm.Returns (compile p) limit result)
    (hsuccess : result.success = true) : ∃ outcome, run p = some outcome ∧
      (outcome = ⟨true, result.returnValue, .none, "", result.output⟩ ∨
        outcome.success = false ∧ outcome.trapCode = .cycleLimit) := by
  rw [run_eq_outcome]
  obtain ⟨-, ⟨oracle, hrun, houtput⟩ | ⟨e, oracle, hrun, message, rfl⟩⟩ :=
    runOf_of_success h hagree hquiet hreturns hsuccess
  · exact ⟨_, by rw [hrun]; rfl, .inl (by rw [← houtput])⟩
  · exact ⟨_, by rw [hrun]; rfl, .inr ⟨rfl, rfl⟩⟩

theorem sample_noMainCalls : sampleProgram.NoMainCalls where
  bodies func hfunc := by
    obtain rfl := List.mem_singleton.mp hfunc
    decide
  inits _ hglob := nomatch hglob

/-- The sample program on both sides. -/
theorem sample_runs : (compile sampleProgram).instructions.length ≤ maxInstructions ∧
    Vm.run (compile sampleProgram) 50 (Vm.init MiniLang.maxCycles none) =
      some (.result ⟨true, 7, .none, "", 8, [], 7, 0, 0⟩) ∧
    run sampleProgram = some ⟨true, 7, .none, "", []⟩ ∧
    "" ≠ s!"Operand stack overflow (max {maxOperandStack} entries)" := by
  decide +kernel

theorem sample_returns : Vm.Returns (compile sampleProgram) MiniLang.maxCycles
    ⟨true, 7, .none, "", 8, [], 7, 0, 0⟩ :=
  ⟨50, sample_runs.2.1⟩

/-- The oracle has ticks enough, and returns 7 too. -/
theorem run_of_success_sample : Vm.Returns (compile sampleProgram) MiniLang.maxCycles
      ⟨true, 7, .none, "", 8, [], 7, 0, 0⟩ ∧
    run sampleProgram = some ⟨true, 7, .none, "", []⟩ := by
  have haccepted : Accepted sampleSource sampleProgram := ⟨sample_parsed, sample_accepted⟩
  obtain ⟨outcome, hrun, rfl | ⟨-, hcode⟩⟩ :=
    run_of_success haccepted sample_declsAgree sample_noMainCalls sample_returns rfl
  · exact ⟨sample_returns, hrun⟩
  · obtain rfl := Option.some_inj.mp (hrun.symm.trans sample_runs.2.2.1)
    cases hcode

end AstOracle

end MiniLang
