import MiniLang.Oracle.Agreement
import MiniLang.Machine.VmTotality

/-!
# Where the machine and the oracle disagree

Away from the limits of both, a compiled program does what the oracle does unless an assignment at a
negative index shows that the two check it at different times.

The run of the oracle is compared with that of the variant `between`, which refuses such assignments,
and this one with the variant that has the machine's choices and so follows the machine. A refusal
does not depend on the ticks that are left: a run that is not cut off stays the same with more ticks,
so that runs with different limits can be compared.
-/

namespace MiniLang

open Compiler

namespace AstOracle

variable {text : List UInt8} {p : Program} {result : VmResult} {limit limit' : Nat}
  {code : TrapCode} {e : Stop} {oracle : AstOracle}

/-! ## Refusals -/

/-- An assignment at a negative index is reached whose value ends in something that would show that
it has been evaluated. -/
def Refuses (p : Program) : Prop :=
  ∃ limit oracle, runOf (between limit) p = .error .refused oracle

/-- A run that has not used up its ticks. -/
def Finished (r : EStateM.Result Stop AstOracle Int) : Prop :=
  ∀ e oracle, r = .error e oracle → ¬e.Is .cycleLimit

theorem Finished.error (h : ¬e.Is .cycleLimit) (oracle : AstOracle) :
    Finished (.error e oracle) := by
  intro e' oracle' heq
  obtain ⟨rfl, rfl⟩ := EStateM.Result.error.inj heq
  exact h

theorem Finished.trap {code' : TrapCode} (he : e.Is code') (h : code' ≠ .cycleLimit)
    (oracle : AstOracle) : Finished (.error e oracle) :=
  .error (fun hticks ↦ h (he.unique hticks)) oracle

theorem Finished.refused (oracle : AstOracle) : Finished (.error .refused oracle) :=
  .error (fun ⟨_, heq⟩ ↦ nomatch heq) oracle

/-- The runs of two limits are alike. -/
theorem alike_longer (h : limit ≤ limit') (p : Program) :
    Alike longerTolerance (new p).output (runOf (between limit) p)
      (runOf (between limit') p) :=
  compares_execute (longer_comparable h) p (limit + 1) (limit' + 1) (new p)

/-- More ticks change nothing once a run has not been cut off. -/
theorem runOf_longer (h : limit ≤ limit') {r : EStateM.Result Stop AstOracle Int}
    (hr : runOf (between limit) p = r)
    (hcut : Finished r) :
    runOf (between limit') p = r := by
  have halike := alike_longer h p
  generalize hr' : runOf (between limit') p = r' at halike
  rw [hr] at halike
  cases halike with
  | ok value _ => rfl
  | error halike _ _ =>
    obtain ⟨rfl, rfl⟩ := halike
    rfl
  | left hleft oracle _ =>
    rcases hleft with rfl | hleft
    · exact absurd rfl (runOf_ne_outOfFuel hr)
    · exact absurd hleft (hcut _ _ rfl)
  | right hright oracle _ => exact absurd hright (runOf_ne_outOfFuel hr')

/-- Of two runs that are not cut off, the limits do not matter. -/
theorem runOf_unique {r r' : EStateM.Result Stop AstOracle Int}
    (hr : runOf (between limit) p = r)
    (hr' : runOf (between limit') p = r')
    (hcut : Finished r) (hcut' : Finished r') : r = r' := by
  rcases Nat.le_total limit limit' with h | h
  · rw [← hr', runOf_longer h hr hcut]
  · rw [← hr, runOf_longer h hr' hcut']

theorem refuses_iff {r : EStateM.Result Stop AstOracle Int}
    (hr : runOf (between limit) p = r)
    (hcut : Finished r) :
    Refuses p ↔ ∃ oracle, r = .error .refused oracle := by
  constructor
  · rintro ⟨limit', oracle, hr'⟩
    exact ⟨oracle, runOf_unique hr hr' hcut (.refused oracle)⟩
  · rintro ⟨oracle, rfl⟩
    exact ⟨limit, oracle, hr⟩

/-! ## Traps -/

/-- The end of the machine's run is that of the oracle's. -/
def Agree (result : VmResult) (outcome : OracleOutcome) : Prop :=
  result.success = outcome.success ∧ result.trapCode = outcome.trapCode ∧
    result.output = outcome.output

/-- The machine returns something else than the end of its cycles. -/
theorem halts_of_returns (h : Accepted text p)
    (hcount : (compile p).instructions.length ≤ maxInstructions)
    (hreturns : Vm.Returns (compile p) MiniLang.maxCycles result)
    (hcycles : result.trapCode ≠ .cycleLimit) :
    Vm.Halts (compile p) (startState p) result ∧ result.cycles ≤ MiniLang.maxCycles := by
  rcases returns_cases h hcount hreturns with ⟨-, -, hcode⟩ | ⟨hhalts, hle⟩
  · exact absurd hcode hcycles
  · exact ⟨hhalts, hle (by decide)⟩

/-- What the machine returns, next to a run of the variant between with enough ticks. -/
inductive BetweenEnd (result : VmResult) : EStateM.Result Stop AstOracle Int → Prop
  | ok {oracle : AstOracle} (hsuccess : result.success = true) (hcode : result.trapCode = .none)
    (houtput : result.output = oracle.output) : BetweenEnd result (.ok result.returnValue oracle)
  | trap {e : Stop} {oracle : AstOracle} (hsuccess : result.success = false)
    (he : e.Is result.trapCode) (houtput : result.output = oracle.output) :
    BetweenEnd result (.error e oracle)
  | refused {oracle : AstOracle}
    (hshows : ¬(result.trapCode = .arrayOutOfBounds ∧ result.output = oracle.output)) :
    BetweenEnd result (.error .refused oracle)

theorem LateEnd.betweenEnd {r : EStateM.Result Stop AstOracle Int} (h : LateEnd result r)
    (hstack : result.trapCode ≠ .stackOverflow) (hcycles : result.cycles ≤ MiniLang.maxCycles)
    (hr : runOf (late limit) p = r) :
    BetweenEnd result (runOf (between limit) p) := by
  cases h with
  | short _ resource _ hcode hlacking =>
    cases resource with
    | addresses =>
      have hlacking : 2 ^ 32 ≤ result.cycles := hlacking
      exact absurd (hlacking.trans hcycles) (by decide)
    | operands => exact absurd hcode hstack
    | slots => exact absurd hcode hstack
  | ok hsuccess hcode houtput =>
    rw [between_of_late_ok hr]
    exact .ok hsuccess hcode houtput
  | @trap message oracle hlimit hsuccess houtput =>
    have halike := alike_late limit p
    rw [hr] at halike
    generalize hr' : runOf (between limit) p = r' at halike ⊢
    cases halike with
    | error halike =>
      rcases halike with ⟨⟨⟩, -⟩ | ⟨code, ⟨_, heq⟩, ⟨he', heq'⟩ | ⟨rfl, -, hshows, -⟩⟩
      all_goals obtain ⟨rfl, -⟩ := Stop.trap.inj heq
      · exact .trap hsuccess he' (houtput.trans heq')
      · refine .refused ?_
        rw [houtput]
        exact hshows
    | left hleft => cases hleft
    | right hright oracle' _ => exact absurd hright (runOf_ne_outOfFuel hr')

/-- What the trap of the oracle's outcome tells of its run. -/
theorem trapCode_outcome {outcome : OracleOutcome} (hrun : run p = some outcome)
    (hcode : code ≠ .none) : outcome.trapCode = code ↔
      ∃ e oracle, runOf (early MiniLang.maxCycles) p = .error e oracle ∧ e.Is code := by
  rw [run_eq_outcome] at hrun
  generalize runOf (early MiniLang.maxCycles) p = r at hrun
  cases r with
  | ok value oracle =>
    obtain rfl := Option.some.inj hrun
    refine iff_of_false (fun heq ↦ hcode heq.symm) ?_
    rintro ⟨_, _, ⟨⟩, -⟩
  | error e oracle =>
    cases e with
    | trap code' message =>
      obtain rfl := Option.some.inj hrun
      constructor
      · rintro rfl
        exact ⟨_, _, rfl, message, rfl⟩
      · rintro ⟨_, _, ⟨⟩, hcode⟩
        exact Stop.Is.unique ⟨message, rfl⟩ hcode
    | panic => cases hrun
    | refused => cases hrun
    | outOfFuel => cases hrun

/-- **Agreement on traps.** Where neither run ends for want of a resource, they agree on success,
on the trap and on the output, unless an assignment at a negative index shows that the machine checks
the index after it has evaluated the value. -/
theorem agree_iff (h : Accepted text p) (hagree : p.DeclsAgree) (hquiet : p.NoMainCalls)
    (hcount : (compile p).instructions.length ≤ maxInstructions)
    (hreturns : Vm.Returns (compile p) MiniLang.maxCycles result)
    (hcycles : result.trapCode ≠ .cycleLimit) (hstack : result.trapCode ≠ .stackOverflow) :
    ∃ outcome, run p = some outcome ∧
      (outcome.trapCode ≠ .cycleLimit → outcome.trapCode ≠ .stackOverflow →
        (Agree result outcome ↔ ¬Refuses p)) := by
  obtain ⟨hhalts, hle⟩ := halts_of_returns h hcount hreturns hcycles
  have hended := (lateRun h hagree hquiet hcount (ticksFor p result.cycles)).ended hhalts le_rfl
  have hbetween := hended.betweenEnd hstack hle rfl
  have halike := alike_early (maxCycles_le_ticksFor p result.cycles) p
  rw [run_eq_outcome]
  generalize hx : runOf (early MiniLang.maxCycles) p = x at halike
  generalize hy : runOf (between (ticksFor p result.cycles)) p = y
    at hbetween halike
  have hcut : Finished y := by
    cases hbetween with
    | ok => exact nofun
    | trap _ he => exact .trap he hcycles _
    | refused => exact .refused _
  have hrefuses := refuses_iff hy hcut
  cases halike with
  | @ok value oracle _ =>
    refine ⟨_, rfl, fun _ _ ↦ ?_⟩
    have hnot : ¬Refuses p := by
      rw [hrefuses]
      rintro ⟨_, ⟨⟩⟩
    cases hbetween with
    | ok hsuccess hcode houtput => exact iff_of_true ⟨hsuccess, hcode, houtput⟩ hnot
  | @error e e' o o' halike =>
    rcases halike with ⟨rfl, rfl⟩ | ⟨code, ⟨message, rfl⟩, he', houtput⟩ |
      ⟨⟨index, hindex, rfl⟩, ⟨rfl, houtput⟩ | rfl | hlimit⟩
    · cases hbetween with
      | trap _ he => obtain ⟨_, ⟨⟩⟩ := he
    · refine ⟨_, rfl, fun _ _ ↦ ?_⟩
      cases hbetween with
      | trap hsuccess he hsame =>
        obtain rfl := he.unique he'
        refine iff_of_true ⟨hsuccess, rfl, hsame.trans houtput.symm⟩ ?_
        rw [hrefuses]
        rintro ⟨_, ⟨⟩⟩
        obtain ⟨_, ⟨⟩⟩ := he
      | refused => obtain ⟨_, ⟨⟩⟩ := he'
    · refine ⟨_, rfl, fun _ _ ↦ ?_⟩
      cases hbetween with
      | trap _ he => obtain ⟨_, ⟨⟩⟩ := he
      | refused hshows =>
        -- the machine shows that the value has been evaluated
        refine iff_of_false (fun hsame ↦ hshows ⟨hsame.2.1, ?_⟩) ?_
        · exact hsame.2.2.trans houtput
        · rw [hrefuses, not_not]
          exact ⟨_, rfl⟩
    · cases hbetween with
      | trap _ he => obtain ⟨_, ⟨⟩⟩ := he
    · exact absurd hlimit (hcut _ _ rfl)
  | left hleft oracle _ =>
    rcases hleft with hfuel | ⟨-, message, rfl⟩
    · exact absurd hfuel (runOf_ne_outOfFuel hx)
    · exact ⟨_, rfl, fun hne ↦ absurd rfl hne⟩
  | right hright oracle _ =>
    rcases hright with hfuel | hdepth
    · exact absurd hfuel (runOf_ne_outOfFuel hy)
    · cases hbetween with
      | trap _ he => exact absurd (he.unique hdepth) hstack
      | refused => obtain ⟨_, ⟨⟩⟩ := hdepth

theorem agree_iff_sample : ∃ outcome, run sampleProgram = some outcome ∧
    (outcome.trapCode ≠ .cycleLimit → outcome.trapCode ≠ .stackOverflow →
      (Agree ⟨true, 7, .none, "", 8, [], 7, 0, 0⟩ outcome ↔ ¬Refuses sampleProgram)) := by
  have haccepted : Accepted sampleSource sampleProgram := ⟨sample_parsed, sample_accepted⟩
  exact agree_iff haccepted sample_declsAgree sample_noMainCalls sample_runs.1 sample_returns
    (by decide) (by decide)

/-! ### An assignment that shows -/

/-- The value divides by zero, and the index is negative. -/
def dividingSource : List UInt8 :=
  asciiBytes "func main() \x7b int a[1]; a[-1] = 1 / 0; \x7d"

def dividing : Program where
  globals := []
  functions := [{
    name := "main"
    params := []
    body := [
      .varDecl .int "a" none (some 1) ⟨1, 15⟩,
      .assign "a" (some (.unary .neg (.intLiteral 1 ⟨1, 28⟩) ⟨1, 27⟩))
        (.binary .div (.intLiteral 1 ⟨1, 33⟩) (.intLiteral 0 ⟨1, 37⟩) ⟨1, 33⟩) ⟨1, 25⟩]
    span := ⟨1, 1⟩ }]

def dividingTokens : List Token := [⟨.kwFunc, ⟨1, 1⟩⟩, ⟨.identifier "main", ⟨1, 6⟩⟩,
  ⟨.lParen, ⟨1, 10⟩⟩, ⟨.rParen, ⟨1, 11⟩⟩, ⟨.lBrace, ⟨1, 13⟩⟩, ⟨.kwInt, ⟨1, 15⟩⟩,
  ⟨.identifier "a", ⟨1, 19⟩⟩, ⟨.lBracket, ⟨1, 20⟩⟩, ⟨.intLiteral 1, ⟨1, 21⟩⟩,
  ⟨.rBracket, ⟨1, 22⟩⟩, ⟨.semicolon, ⟨1, 23⟩⟩, ⟨.identifier "a", ⟨1, 25⟩⟩,
  ⟨.lBracket, ⟨1, 26⟩⟩, ⟨.minus, ⟨1, 27⟩⟩, ⟨.intLiteral 1, ⟨1, 28⟩⟩, ⟨.rBracket, ⟨1, 29⟩⟩,
  ⟨.assign, ⟨1, 31⟩⟩, ⟨.intLiteral 1, ⟨1, 33⟩⟩, ⟨.slash, ⟨1, 35⟩⟩, ⟨.intLiteral 0, ⟨1, 37⟩⟩,
  ⟨.semicolon, ⟨1, 38⟩⟩, ⟨.rBrace, ⟨1, 40⟩⟩, ⟨.eof, ⟨1, 41⟩⟩]

theorem dividing_runs : tokenize dividingSource = dividingTokens ∧
    SemanticAnalyzer.analyze dividing = .ok () ∧
    (compile dividing).instructions.length ≤ maxInstructions ∧
    Vm.run (compile dividing) 50 (Vm.init MiniLang.maxCycles none) =
      some (.result ⟨false, 0, .divideByZero, "Division by zero", 7, [], 6, 1, 1⟩) ∧
    run dividing =
      some ⟨false, 0, .arrayOutOfBounds, "Array index -1 out of bounds", []⟩ := by
  decide +kernel

theorem dividing_accepted : Accepted dividingSource dividing := by
  refine ⟨?_, dividing_runs.2.1⟩
  rw [Parsed, dividing_runs.1]
  rfl

theorem not_agree : ¬∀ (text : List UInt8) (p : Program) (result : VmResult)
    (outcome : OracleOutcome), Accepted text p → p.DeclsAgree → p.NoMainCalls →
    (compile p).instructions.length ≤ maxInstructions →
    Vm.Returns (compile p) MiniLang.maxCycles result → run p = some outcome →
    result.trapCode ≠ .cycleLimit → result.trapCode ≠ .stackOverflow →
    outcome.trapCode ≠ .cycleLimit → outcome.trapCode ≠ .stackOverflow → Agree result outcome := by
  intro hall
  have hagree : dividing.DeclsAgree := by
    intro f hf d hd d' hd' _
    obtain rfl := List.mem_singleton.mp hf
    exact congrArg Prod.snd ((List.mem_singleton.mp hd).trans (List.mem_singleton.mp hd').symm)
  have hquiet : dividing.NoMainCalls := by
    refine ⟨fun func hfunc ↦ ?_, fun _ hglob ↦ nomatch hglob⟩
    obtain rfl := List.mem_singleton.mp hfunc
    decide
  obtain ⟨-, -, hcount, hvm, hrun⟩ := dividing_runs
  have hsame := hall dividingSource dividing _ _ dividing_accepted hagree hquiet hcount
    ⟨50, hvm⟩ hrun (by decide) (by decide) (by decide) (by decide)
  exact nomatch hsame.2.1

end AstOracle

end MiniLang
