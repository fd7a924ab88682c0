import MiniLang.Oracle.Disagreement

/-!
# Ticks and cycles

The oracle charges a tick for each node of the syntax tree that it evaluates, the machine a cycle
for each instruction. The two budgets are of the same size, and which of them is used up first
depends on the program. What holds is that a tick takes at most three cycles, and that the ticks of
a cycle are bounded by the text of the program.

## Each way

What the machine does not end within its cycles, the oracle does not end within a third as many
ticks. In the other direction there is no constant: a function with many empty blocks takes many
ticks and few instructions. `ticksOf` therefore counts the nodes of the program and pays with all of
them for each cycle. This is far from sharp and it need not be: it says that an oracle that uses up
its ticks belongs to a run of the machine that takes any number of cycles, if the ticks were as many
as the text asks for.

## The two programs

`looping` never ends and meets both premises. `counting` ends after 84007 ticks, within the limit of
the oracle, and 108008 cycles, beyond that of the machine: the two limits do not agree. Its run is
computed by one iteration on each side and an induction on their number, since evaluating it is out
of the question.
-/

namespace MiniLang

open Compiler

namespace AstOracle

variable {text : List UInt8} {p : Program} {result : VmResult} {limit : Nat}

/-! ## The two budgets -/

/-- Ticks that the machine's cycles may take. For each cycle: one pass through the bodies of all
functions, and two for each function; before the first one: as many, and one pass through the initial
values of the globals. -/
def ticksOf (p : Program) (cycles : Nat) : Nat :=
  (settingOf p source).credit + (settingOf p source).rate * cycles

theorem Passes.mono {program : CompiledProgram} {vm : Vm} {limit' : Nat}
    (h : Vm.Passes program limit' vm) (hle : limit ≤ limit') : Vm.Passes program limit vm := by
  obtain ⟨vm', hreach, hcycles⟩ := h
  exact ⟨vm', hreach, hle.trans hcycles⟩

/-- A run that passes the limit has no end within it. -/
theorem Halts.not_passes {program : CompiledProgram} {vm : Vm}
    (h : Vm.Halts program vm result) (hlt : result.cycles < limit) :
    ¬Vm.Passes program limit vm := by
  rintro ⟨vm', hreach, hcycles⟩
  exact absurd (h.cycles_ge hreach) (by omega)

/-- What the machine does not end in a third of the ticks, the oracle does not either. -/
theorem late_of_passes (h : Accepted text p) (hagree : p.DeclsAgree) (hquiet : p.NoMainCalls)
    (hcount : (compile p).instructions.length ≤ maxInstructions)
    (hpasses : Vm.Passes (compile p) MiniLang.maxCycles (startState p)) :
    ∃ e oracle, runOf (late (MiniLang.maxCycles / 3)) p = .error e oracle ∧ e.Is .cycleLimit := by
  have hthird : 3 * (MiniLang.maxCycles / 3) < MiniLang.maxCycles := by decide
  have hrun := lateRun h hagree hquiet hcount (MiniLang.maxCycles / 3)
  generalize runOf (late (MiniLang.maxCycles / 3)) p = r at hrun
  cases hrun with
  | short _ resource hhalts _ _ _ hcycles =>
    exact absurd hpasses (Halts.not_passes hhalts (hcycles.trans_lt hthird))
  | ok value hhalts _ _ _ _ hcycles =>
    exact absurd hpasses (Halts.not_passes hhalts (hcycles.trans_lt hthird))
  | trap message _ hhalts _ _ _ hcycles =>
    exact absurd hpasses (Halts.not_passes hhalts (hcycles.trans_lt hthird))
  | cycleLimit message oracle => exact ⟨_, oracle, rfl, message, rfl⟩

theorem early_of_passes (h : Accepted text p) (hagree : p.DeclsAgree) (hquiet : p.NoMainCalls)
    (hcount : (compile p).instructions.length ≤ maxInstructions)
    (hpasses : Vm.Passes (compile p) MiniLang.maxCycles (startState p)) :
    ∃ e oracle, runOf (early (MiniLang.maxCycles / 3)) p = .error e oracle ∧
      (e.Is .cycleLimit ∨ e.Negative) := by
  obtain ⟨e, oracle, hz, hlimit⟩ := late_of_passes h hagree hquiet hcount hpasses
  have hlate := alike_late (MiniLang.maxCycles / 3) p
  have hearly := alike_early (le_refl (MiniLang.maxCycles / 3)) p
  rw [hz] at hlate
  generalize hy : runOf (between (MiniLang.maxCycles / 3)) p = y
    at hlate hearly
  generalize hx : runOf (early (MiniLang.maxCycles / 3)) p = x at hearly ⊢
  -- the variant between is cut off as well
  have hcut : ∃ e oracle, y = .error e oracle ∧ e.Is .cycleLimit := by
    cases hlate with
    | error halike =>
      rcases halike with ⟨rfl, -⟩ | ⟨code, he, hsame⟩
      · obtain ⟨_, ⟨⟩⟩ := hlimit
      · obtain rfl := he.unique hlimit
        rcases hsame with ⟨he', -⟩ | ⟨-, hne, -⟩
        · exact ⟨_, _, rfl, he'⟩
        · exact absurd rfl hne
    | left hleft =>
      obtain rfl : _ = Stop.outOfFuel := hleft
      obtain ⟨_, ⟨⟩⟩ := hlimit
    | right hright => exact absurd hright (runOf_ne_outOfFuel hy)
  obtain ⟨e', oracle', rfl, hlimit'⟩ := hcut
  cases hearly with
  | error halike =>
    rcases halike with ⟨-, rfl⟩ | ⟨code, he, he', -⟩ | ⟨hnegative, -⟩
    · obtain ⟨_, ⟨⟩⟩ := hlimit'
    · obtain rfl := he'.unique hlimit'
      exact ⟨_, _, rfl, .inl he⟩
    · exact ⟨_, _, rfl, .inr hnegative⟩
  | left hleft oracle _ =>
    rcases hleft with hfuel | ⟨hlt, -⟩
    · exact absurd hfuel (runOf_ne_outOfFuel hx)
    · exact absurd hlt (Nat.lt_irrefl _)
  | right hright =>
    rcases hright with rfl | hdepth
    · obtain ⟨_, ⟨⟩⟩ := hlimit'
    · exact nomatch hdepth.unique hlimit'

/-- Where the oracle uses up its ticks, the machine's call stack overflows or its run takes as many
cycles as take that many ticks. -/
theorem passes_of_early (h : Accepted text p) (hagree : p.DeclsAgree) (hquiet : p.NoMainCalls)
    (hcount : (compile p).instructions.length ≤ maxInstructions)
    (hx : ∃ e oracle, runOf (early MiniLang.maxCycles) p = .error e oracle ∧ e.Is .cycleLimit)
    (hlimit : ticksOf p limit ≤ MiniLang.maxCycles) :
    Vm.Passes (compile p) limit (startState p) ∨
      ∃ result, Vm.Halts (compile p) (startState p) result ∧
        (result.trapCode = .stackOverflow ∨ 2 ^ 32 ≤ result.cycles) := by
  obtain ⟨e, oracle, hx, hticks⟩ := hx
  have hlate := alike_late MiniLang.maxCycles p
  have hearly := alike_early (le_refl MiniLang.maxCycles) p
  have hrun := lateRun h hagree hquiet hcount MiniLang.maxCycles
  rw [hx] at hearly
  generalize hy : runOf (between MiniLang.maxCycles) p = y at hlate hearly
  generalize runOf (late MiniLang.maxCycles) p = z at hlate hrun
  -- the variant between is cut off as well, or its call stack overflows
  have hcut : ∃ e oracle, y = .error e oracle ∧ (e.Is .cycleLimit ∨ e.Is .stackOverflow) := by
    cases hearly with
    | error halike =>
      rcases halike with ⟨rfl, -⟩ | ⟨code, he, he', -⟩ | ⟨hnegative, -⟩
      · obtain ⟨_, ⟨⟩⟩ := hticks
      · obtain rfl := he.unique hticks
        exact ⟨_, _, rfl, .inl he'⟩
      · exact nomatch hnegative.bounds.unique hticks
    | left hleft =>
      rcases hleft with rfl | ⟨hlt, -⟩
      · obtain ⟨_, ⟨⟩⟩ := hticks
      · exact absurd hlt (Nat.lt_irrefl _)
    | right hright =>
      rcases hright with hfuel | hdepth
      · exact absurd hfuel (runOf_ne_outOfFuel hy)
      · exact ⟨_, _, rfl, .inr hdepth⟩
  obtain ⟨e', oracle', rfl, hend⟩ := hcut
  cases hrun with
  | short _ resource hhalts _ hcode hlacking =>
    refine .inr ⟨_, hhalts, ?_⟩
    cases resource with
    | addresses => exact .inr hlacking
    | operands => exact .inl hcode
    | slots => exact .inl hcode
  | ok value =>
    cases hlate with
    | right hright => exact absurd hright (runOf_ne_outOfFuel hy)
  | trap message hne hhalts _ hcode =>
    refine .inr ⟨_, hhalts, .inl ?_⟩
    cases hlate with
    | error halike =>
      rcases halike with ⟨⟨⟩, -⟩ | ⟨code, ⟨_, heq⟩, ⟨he', -⟩ | ⟨rfl, -⟩⟩
      · obtain ⟨rfl, -⟩ := Stop.trap.inj heq
        rcases hend with hend | hend
        · exact absurd (he'.unique hend) hne
        · exact hcode.trans (he'.unique hend)
      · exact absurd rfl (hend.elim (·.ne_refused) (·.ne_refused))
    | left hleft => cases hleft
    | right hright => exact absurd hright (runOf_ne_outOfFuel hy)
  | @cycleLimit message oracle vm hreach hcycles =>
    refine .inl ⟨vm, hreach, ?_⟩
    by_contra hlt
    have hle := Nat.mul_le_mul_left (settingOf p source).rate (Nat.le_of_not_le hlt)
    have hcycles : MiniLang.maxCycles <
      (settingOf p source).credit + (settingOf p source).rate * vm.cycles := hcycles
    rw [ticksOf] at hlimit
    omega

theorem le_ticksOf (h : Accepted text p) (limit : Nat) : limit ≤ ticksOf p limit := by
  obtain ⟨main, hmain, -⟩ := h.exists_main
  have hpays := pays_settingOf p source main (List.mem_of_getElem? hmain)
  have hrate : 1 ≤ (settingOf p source).rate := by omega
  have hle := Nat.mul_le_mul_right limit hrate
  rw [ticksOf]
  omega

theorem LateEnd.ne_cycleLimit {r : EStateM.Result Stop AstOracle Int} (h : LateEnd result r) :
    result.trapCode ≠ .cycleLimit := by
  cases h with
  | short _ resource _ hcode =>
    rw [hcode]
    cases resource <;> decide
  | ok _ hcode =>
    rw [hcode]
    decide
  | trap message hlimit => exact hlimit

/-- A run that is cut off. -/
theorem exists_returns_of_passes (h : Accepted text p)
    (hcount : (compile p).instructions.length ≤ maxInstructions) (hlimit : 0 < limit)
    (hpasses : Vm.Passes (compile p) limit (startState p)) :
    ∃ result, Vm.Returns (compile p) limit result ∧ result.trapCode = .cycleLimit := by
  obtain ⟨fuel, halt, final, hrun⟩ := Vm.exists_runFull (compile p) hlimit none
  have hfull := hrun
  rw [Vm.runFull, start_compile h hcount] at hrun
  obtain ⟨result, rfl, -, hcode⟩ := Vm.cutOff_of_passes rfl hlimit hpasses hrun
  exact ⟨result, ⟨fuel, by rw [Vm.run, hfull]; rfl⟩, hcode⟩

/-- **The two limits.** What the machine does not end within its cycles, the oracle does not end
within a third as many ticks, but for an index that it finds negative. And where the oracle uses up
its ticks, the machine uses up any number of cycles that do not take more ticks than these. -/
theorem limits_related (h : Accepted text p) (hagree : p.DeclsAgree) (hquiet : p.NoMainCalls)
    (hcount : (compile p).instructions.length ≤ maxInstructions)
    (hreturns : Vm.Returns (compile p) MiniLang.maxCycles result)
    (hstack : result.trapCode ≠ .stackOverflow) :
    (result.trapCode = .cycleLimit →
      ∃ outcome, runWith (early (MiniLang.maxCycles / 3)) p = some outcome ∧
        (outcome.trapCode = .cycleLimit ∨ outcome.trapCode = .arrayOutOfBounds ∧
          ∃ index < (0 : Int), outcome.trapMessage = s!"Array index {index} out of bounds")) ∧
      ∀ outcome, run p = some outcome → outcome.trapCode = .cycleLimit →
        ∀ limit, 0 < limit → ticksOf p limit ≤ MiniLang.maxCycles →
          ∃ result, Vm.Returns (compile p) limit result ∧ result.trapCode = .cycleLimit := by
  constructor
  · intro hcode
    have hpasses : Vm.Passes (compile p) MiniLang.maxCycles (startState p) := by
      rcases returns_cases h hcount hreturns with ⟨hpasses, -⟩ | ⟨hhalts, -⟩
      · exact hpasses
      · have hrun := lateRun h hagree hquiet hcount (ticksFor p result.cycles)
        exact absurd hcode (hrun.ended hhalts le_rfl).ne_cycleLimit
    obtain ⟨e, oracle, hx, hend⟩ := early_of_passes h hagree hquiet hcount hpasses
    have hrun : runWith (early (MiniLang.maxCycles / 3)) p = outcome (.error e oracle) :=
      congrArg outcome hx
    rcases hend with ⟨message, rfl⟩ | ⟨index, hindex, rfl⟩
    · exact ⟨_, hrun, .inl rfl⟩
    · exact ⟨_, hrun, .inr ⟨rfl, index, hindex, rfl⟩⟩
  · intro outcome hrun hcode limit hlimit hticks
    have hle := (le_ticksOf h limit).trans hticks
    refine exists_returns_of_passes h hcount hlimit ?_
    have hx := (trapCode_outcome hrun (by decide)).mp hcode
    rcases passes_of_early h hagree hquiet hcount hx hticks with hpasses | ⟨result', hhalts, hshort⟩
    · exact hpasses
    · -- the machine is cut off before it runs short
      rcases returns_cases h hcount hreturns with ⟨hpasses, -⟩ | ⟨hhalts', hcycles⟩
      · exact Passes.mono hpasses hle
      · obtain rfl := hhalts.unique hhalts'
        rcases hshort with hshort | hshort
        · exact absurd hshort hstack
        · exact absurd (hshort.trans (hcycles (by decide))) (by decide)

section Ticks

variable {rules : Rules} {oracle : AstOracle}

theorem run_tick (h : oracle.cycles < rules.maxCycles) :
    (tick rules).run oracle = .ok () { oracle with cycles := oracle.cycles + 1 } := by
  have hle : ¬oracle.cycles + 1 > rules.maxCycles := by omega
  have hrun : (tick rules).run oracle = (if oracle.cycles + 1 > rules.maxCycles then
      trap .cycleLimit s!"Cycle limit exceeded ({rules.maxCycles})" else pure () : OracleM Unit).run
        { oracle with cycles := oracle.cycles + 1 } := rfl
  rw [hrun, if_neg hle]
  rfl

theorem run_tick_limit (h : rules.maxCycles ≤ oracle.cycles) : (tick rules).run oracle =
    .error (.trap .cycleLimit s!"Cycle limit exceeded ({rules.maxCycles})")
      { oracle with cycles := oracle.cycles + 1 } := by
  have hlt : oracle.cycles + 1 > rules.maxCycles := by omega
  have hrun : (tick rules).run oracle = (if oracle.cycles + 1 > rules.maxCycles then
      trap .cycleLimit s!"Cycle limit exceeded ({rules.maxCycles})" else pure () : OracleM Unit).run
        { oracle with cycles := oracle.cycles + 1 } := rfl
  rw [hrun, if_pos hlt]
  rfl

end Ticks

/-! ### A loop without end -/

def loopingMain : Function where
  name := "main"
  params := []
  body := [.whileStmt (.intLiteral 1 ⟨1, 22⟩) [] ⟨1, 15⟩]
  span := ⟨1, 1⟩

def looping : Program where
  globals := []
  functions := [loopingMain]

/-- The oracle in the loop. -/
def spun (cycles : Nat) : AstOracle := ⟨∅, [⟨[∅]⟩], [], cycles⟩

section

variable {rules : Rules} {call : String → List Int → OracleM Int} {cycles fuel : Nat}

/-- The loop goes on until its ticks are used up. -/
theorem run_loopingLoop (hcycles : cycles ≤ rules.maxCycles) (hfuel : rules.maxCycles < cycles + fuel)
    (k : Nat) : ∃ e oracle, (loop (evalExpr rules call (.intLiteral 1 ⟨1, 22⟩))
        (execBlock rules call k []) fuel).run (spun cycles) = .error e oracle ∧ e.Is .cycleLimit := by
  induction fuel generalizing cycles with
  | zero => omega
  | succ fuel ih =>
    rw [loop, EStateM.run_bind, evalExpr, EStateM.run_bind]
    rcases Nat.lt_or_ge cycles rules.maxCycles with hlt | hge
    · obtain ⟨e, oracle, hrun, he⟩ := ih hlt (by omega)
      refine ⟨e, oracle, ?_, he⟩
      rw [run_tick hlt]
      exact hrun
    · rw [run_tick_limit hge]
      exact ⟨_, _, rfl, _, rfl⟩

theorem run_loopingMain (hcycles : 2 ≤ rules.maxCycles) (hframes : 0 < rules.frameLimit.frames)
    (hfuel : rules.maxCycles ≤ fuel) :
    ∃ e oracle, (callFunction rules looping (fuel + 1) "main" []).run (new looping) =
      .error e oracle ∧ e.Is .cycleLimit := by
  obtain ⟨e, oracle, hloop, he⟩ := @run_loopingLoop rules (callFunction rules looping fuel) 2 fuel
    hcycles (by omega) fuel
  refine ⟨e, oracle, ?_, he⟩
  have hbody : (execBlock rules (callFunction rules looping fuel) fuel loopingMain.body).run
      (spun 1) = .error e oracle := by
    rw [loopingMain, execBlock, EStateM.run_bind, execStmt, EStateM.run_bind,
      run_tick (by exact (by omega : 1 < rules.maxCycles))]
    dsimp only
    rw [show { spun 1 with cycles := (spun 1).cycles + 1 } = spun 2 from rfl, hloop]
  rw [callFunction, EStateM.run_bind, run_tick (by exact (by omega : 0 < rules.maxCycles))]
  have hroom : ¬(0 : Nat) ≥ rules.frameLimit.frames := by omega
  refine (EStateM.run_bind ..).trans ?_
  refine (congrArg (EStateM.run · _) (if_neg hroom)).trans ?_
  refine (EStateM.run_bind ..).trans ?_
  refine (EStateM.run_bind ..).trans ?_
  erw [hbody]

end

theorem runOf_looping {limit : Nat} (h : 2 ≤ limit) :
    ∃ e oracle, runOf (early limit) looping = .error e oracle ∧ e.Is .cycleLimit :=
  @run_loopingMain (early limit) limit h (show 0 < MiniLang.maxFrames by decide) le_rfl

def loopingCode : List Instruction := [⟨.loadConst, 1, 0⟩, ⟨.jumpIfFalse, 3, 0⟩, ⟨.jump, 0, 0⟩,
  ⟨.loadConst, 0, 0⟩, ⟨.return, 0, 0⟩]

theorem compile_looping : (compile looping).instructions = loopingCode ∧
    entryPc looping (compile looping).mainFuncId = 0 ∧
    SemanticAnalyzer.analyze looping = .ok () ∧ ticksOf looping 20000 ≤ MiniLang.maxCycles := by
  decide +kernel

/-- The machine in the loop. -/
def spinning (pc : Nat) (stack : List Int) (cycles : Nat) : Vm :=
  { startState looping with stack := stack, pc := pc, cycles := cycles }

theorem fetches_spinning {pc cycles : Nat} {stack : List Int} {instr : Instruction}
    (h : loopingCode[pc]? = some instr) :
    Vm.Fetches (compile looping) (spinning pc stack cycles) instr :=
  ⟨⟨rfl, rfl⟩, List.cons_ne_nil _ _, by rw [compile_looping.1]; exact h⟩

theorem reaches_spinning (n : Nat) : Stepping.Reaches (Vm.step (compile looping))
    (spinning 0 [] 0) (spinning 0 [] (3 * n)) := by
  induction n with
  | zero => exact .refl _
  | succ n ih =>
    have hroom : ([] : List Int).length < maxOperandStack := by decide
    refine ih.trans ?_
    refine .head ((Vm.puts_loadConst (fetches_spinning rfl)).step hroom) ?_
    refine .head (Vm.step_jumpIfFalse (fetches_spinning rfl) rfl) ?_
    exact .head (Vm.step_jump (fetches_spinning rfl)) (.refl _)

theorem passes_looping (limit : Nat) :
    Vm.Passes (compile looping) limit (startState looping) := by
  have hstart : startState looping = spinning 0 [] 0 := by
    rw [spinning, startState, compile_looping.2.1]
    rfl
  rw [hstart]
  refine ⟨_, reaches_spinning limit, ?_⟩
  change limit ≤ 3 * limit
  omega

def loopingSource : List UInt8 := asciiBytes "func main() \x7b while (1) \x7b \x7d \x7d"

def loopingTokens : List Token := [⟨.kwFunc, ⟨1, 1⟩⟩, ⟨.identifier "main", ⟨1, 6⟩⟩,
  ⟨.lParen, ⟨1, 10⟩⟩, ⟨.rParen, ⟨1, 11⟩⟩, ⟨.lBrace, ⟨1, 13⟩⟩, ⟨.kwWhile, ⟨1, 15⟩⟩,
  ⟨.lParen, ⟨1, 21⟩⟩, ⟨.intLiteral 1, ⟨1, 22⟩⟩, ⟨.rParen, ⟨1, 23⟩⟩, ⟨.lBrace, ⟨1, 25⟩⟩,
  ⟨.rBrace, ⟨1, 27⟩⟩, ⟨.rBrace, ⟨1, 29⟩⟩, ⟨.eof, ⟨1, 30⟩⟩]

theorem tokenize_looping : tokenize loopingSource = loopingTokens := by decide +kernel

theorem looping_accepted : Accepted loopingSource looping := by
  refine ⟨?_, compile_looping.2.2.1⟩
  rw [Parsed, tokenize_looping]
  rfl

/-- The loop is cut off after a third of the ticks, and after 20000 cycles. -/
theorem limits_related_looping :
    (∃ outcome, runWith (early (MiniLang.maxCycles / 3)) looping = some outcome ∧
      outcome.trapCode = .cycleLimit) ∧
    ∃ result, Vm.Returns (compile looping) 20000 result ∧ result.trapCode = .cycleLimit := by
  have hagree : looping.DeclsAgree := by
    intro f hf d hd
    obtain rfl := List.mem_singleton.mp hf
    cases hd
  have hquiet : looping.NoMainCalls := by
    refine ⟨fun func hfunc ↦ ?_, fun _ hglob ↦ nomatch hglob⟩
    obtain rfl := List.mem_singleton.mp hfunc
    decide
  have hcount : (compile looping).instructions.length ≤ maxInstructions := by
    rw [compile_looping.1]
    decide
  obtain ⟨result, hreturns, hcode⟩ := exists_returns_of_passes looping_accepted hcount
    (by decide : 0 < MiniLang.maxCycles) (passes_looping _)
  obtain ⟨hticks, hcycles⟩ := limits_related looping_accepted hagree hquiet hcount hreturns
    (by rw [hcode]; decide)
  constructor
  · obtain ⟨outcome, hrun, hend⟩ := hticks hcode
    obtain ⟨_, oracle, hcut, message, rfl⟩ :=
      runOf_looping (by decide : 2 ≤ MiniLang.maxCycles / 3)
    obtain rfl : outcome = ⟨false, 0, .cycleLimit, message, oracle.output⟩ :=
      Option.some.inj (hrun.symm.trans (congrArg AstOracle.outcome hcut))
    exact ⟨_, hrun, hend.resolve_right fun h ↦ nomatch h.1⟩
  · obtain ⟨_, oracle, hcut, message, rfl⟩ := runOf_looping (by decide : 2 ≤ MiniLang.maxCycles)
    have hrun : run looping = some ⟨false, 0, .cycleLimit, message, oracle.output⟩ :=
      (run_eq_outcome looping).trans (congrArg AstOracle.outcome hcut)
    exact hcycles _ hrun rfl 20000 (by decide) compile_looping.2.2.2

/-! ### A loop between the two limits -/

def countingCond : Expr :=
  .binary .lt (.identifier "i" ⟨1, 33⟩) (.intLiteral 12000 ⟨1, 37⟩) ⟨1, 33⟩

def countingBody : List Stmt := [.assign "i" none
  (.binary .add (.identifier "i" ⟨1, 50⟩) (.intLiteral 1 ⟨1, 54⟩) ⟨1, 50⟩) ⟨1, 46⟩]

def countingMain : Function where
  name := "main"
  params := []
  body := [.varDecl .int "i" (some (.intLiteral 0 ⟨1, 23⟩)) none ⟨1, 15⟩,
    .whileStmt countingCond countingBody ⟨1, 26⟩]
  span := ⟨1, 1⟩

/-- A loop that takes 84007 ticks and 108008 cycles. -/
def counting : Program where
  globals := []
  functions := [countingMain]

/-- The scope of the loop. -/
def counterScope (value : Int) : HashMap String Slot :=
  AList.singleton "i" (.scalar (some value))

/-- The oracle in the loop. -/
def ticked (value : Int) (cycles : Nat) : AstOracle :=
  ⟨∅, [⟨[counterScope value]⟩], [], cycles⟩

section

variable {value : Int} {cycles fuel : Nat} {rules : Rules} {call : String → List Int → OracleM Int}
  {oracle : AstOracle}

theorem insert_counterScope (value value' : Int) :
    (counterScope value).insert "i" (.scalar (some value')) = counterScope value' :=
  AList.insert_singleton_eq

theorem mem_counterScope (value : Int) : "i" ∈ counterScope value := by
  rw [← AList.lookup_isSome]
  rfl

theorem replaceSlot_ticked (value value' : Int) (cycles : Nat) :
    (ticked value cycles).replaceSlot "i" (.scalar (some value')) = ticked value' cycles := by
  have hscopes : replaceScopes "i" (.scalar (some value')) [counterScope value] =
      [counterScope value'] := by
    rw [replaceScopes, if_pos (mem_counterScope value), insert_counterScope]
  rw [ticked, replaceSlot]
  dsimp only
  rw [hscopes]
  rfl

/-- A step in the loop that takes a tick. -/
theorem run_ticked {α : Type} (h : cycles < rules.maxCycles) (f : OracleM α) :
    (tick rules >>= fun _ ↦ f).run (ticked value cycles) = f.run (ticked value (cycles + 1)) := by
  rw [EStateM.run_bind, run_tick (by exact h)]
  rfl

theorem run_counter (h : cycles < rules.maxCycles) (span : Span) :
    (evalExpr rules call (.identifier "i" span)).run (ticked value cycles) =
      .ok value (ticked value (cycles + 1)) :=
  run_ticked h (readScalar "i")

theorem run_literal (h : cycles < rules.maxCycles) (n : Int32) (span : Span) :
    (evalExpr rules call (.intLiteral n span)).run (ticked value cycles) =
      .ok n.toInt (ticked value (cycles + 1)) :=
  run_ticked h (pure n.toInt)

theorem run_countingCond (h : cycles + 3 ≤ rules.maxCycles) :
    (evalExpr rules call countingCond).run (ticked value cycles) =
      .ok (flag (value < 12000)) (ticked value (cycles + 3)) := by
  refine (run_ticked (by omega) (do
    let left ← evalExpr rules call (.identifier "i" ⟨1, 33⟩)
    let right ← evalExpr rules call (.intLiteral 12000 ⟨1, 37⟩)
    evalBinary .lt left right)).trans ?_
  rw [EStateM.run_bind, run_counter (by omega)]
  dsimp only
  rw [EStateM.run_bind, run_literal (by omega)]
  rfl

theorem run_countingBody (h : cycles + 4 ≤ rules.maxCycles) (hvalue : IsI32 (value + 1)) :
    (execBlock rules call fuel countingBody).run (ticked value cycles) =
      .ok .continue (ticked (value + 1) (cycles + 4)) := by
  have hwrap : wrapI64 (value + (1 : Int32).toInt) = value + 1 := by
    rw [IsI32] at hvalue
    rw [show (1 : Int32).toInt = 1 from rfl, wrapI64, Int.bmod_eq_of_le] <;> omega
  have hsum : (evalExpr rules call (.binary .add (.identifier "i" ⟨1, 50⟩) (.intLiteral 1 ⟨1, 54⟩)
      ⟨1, 50⟩)).run (ticked value (cycles + 1)) =
        .ok (value + 1) (ticked value (cycles + 4)) := by
    refine (run_ticked (by omega) (do
      let left ← evalExpr rules call (.identifier "i" ⟨1, 50⟩)
      let right ← evalExpr rules call (.intLiteral 1 ⟨1, 54⟩)
      evalBinary .add left right)).trans ?_
    rw [EStateM.run_bind, run_counter (by omega)]
    dsimp only
    rw [EStateM.run_bind, run_literal (by omega)]
    dsimp only
    rw [evalBinary, hwrap, normalizeI32_eq hvalue]
    rfl
  have hassign : (assignScalar "i" (value + 1)).run (ticked value (cycles + 4)) =
      .ok () (ticked (value + 1) (cycles + 4)) := by
    have hrun : (assignScalar "i" (value + 1)).run (ticked value (cycles + 4)) =
        .ok () ((ticked value (cycles + 4)).replaceSlot "i"
          (.scalar (some (normalizeI32 (value + 1))))) := rfl
    rw [hrun, normalizeI32_eq hvalue, replaceSlot_ticked]
  refine (EStateM.run_bind ..).trans ?_
  have hstmt : (execStmt rules call fuel (.assign "i" none (.binary .add (.identifier "i" ⟨1, 50⟩)
      (.intLiteral 1 ⟨1, 54⟩) ⟨1, 50⟩) ⟨1, 46⟩)).run (ticked value cycles) =
        .ok .continue (ticked (value + 1) (cycles + 4)) := by
    refine (run_ticked (by omega) _).trans ?_
    rw [EStateM.run_bind, execAssign, EStateM.run_bind, hsum]
    dsimp only
    rw [hassign]
    rfl
  rw [hstmt]
  rfl

/-- The loop, as many times as it takes. -/
theorem run_countingLoop (n : Nat) (hn : n ≤ 12000) (h : cycles + 7 * n + 3 ≤ rules.maxCycles)
    (hfuel : n < fuel) (k : Nat) :
    (loop (evalExpr rules call countingCond) (execBlock rules call k countingBody) fuel).run
        (ticked (12000 - n) cycles) =
      .ok .continue (ticked 12000 (cycles + 7 * n + 3)) := by
  induction n generalizing cycles fuel with
  | zero =>
    obtain ⟨fuel, rfl⟩ := Nat.exists_eq_add_of_lt hfuel
    rw [Nat.zero_add, loop, EStateM.run_bind, run_countingCond (by omega)]
    rfl
  | succ n ih =>
    obtain ⟨fuel, rfl⟩ : ∃ m, fuel = m + 1 := ⟨fuel - 1, by omega⟩
    have hcond : flag ((12000 : Int) - (n + 1 : Nat) < 12000) ≠ 0 := by
      rw [flag, if_pos (by omega)]
      decide
    have hnext : (12000 : Int) - (n + 1 : Nat) + 1 = 12000 - n := by omega
    rw [loop, EStateM.run_bind, run_countingCond (by omega)]
    dsimp only
    rw [if_pos hcond, EStateM.run_bind, run_countingBody (by omega) (by rw [IsI32]; omega), hnext]
    dsimp only
    rw [ih (by omega) (by omega) (by omega), show cycles + 3 + 4 + 7 * n + 3 =
      cycles + 7 * (n + 1) + 3 from by omega]

/-- The declaration of the variable. -/
theorem run_countingDecl (h : 3 ≤ rules.maxCycles) :
    (execStmt rules call fuel (.varDecl .int "i" (some (.intLiteral 0 ⟨1, 23⟩)) none ⟨1, 15⟩)).run
        ⟨∅, [⟨[∅]⟩], [], 1⟩ = .ok .continue (ticked 0 3) := by
  refine (EStateM.run_bind ..).trans ?_
  rw [run_tick (by exact (by omega : 1 < rules.maxCycles))]
  refine (EStateM.run_bind ..).trans ?_
  have hdecl : (execVarDecl rules call "i" (some (.intLiteral 0 ⟨1, 23⟩)) none).run
      ⟨∅, [⟨[∅]⟩], [], 2⟩ = (do
        assignScalar "i" (← evalExpr rules call (.intLiteral 0 ⟨1, 23⟩)) : OracleM Unit).run
          ⟨∅, [⟨[AList.singleton "i" (.scalar none)]⟩], [], 2⟩ := rfl
  rw [hdecl, EStateM.run_bind, evalExpr, EStateM.run_bind,
    run_tick (by exact (by omega : 2 < rules.maxCycles))]
  rfl

theorem run_countingMain (hcycles : 84007 ≤ rules.maxCycles) (hframes : 0 < rules.frameLimit.frames)
    (hfuel : 12000 < fuel) :
    (callFunction rules counting (fuel + 1) "main" []).run (new counting) =
      .ok 0 ⟨∅, [], [], 84007⟩ := by
  have hloop := @run_countingLoop 4 fuel rules (callFunction rules counting fuel) 12000 le_rfl
    hcycles hfuel fuel
  have hdecl := @run_countingDecl fuel rules (callFunction rules counting fuel) (by omega)
  have hbody : (execBlock rules (callFunction rules counting fuel) fuel countingMain.body).run
      ⟨∅, [⟨[∅]⟩], [], 1⟩ = .ok .continue (ticked 12000 84007) := by
    rw [countingMain, execBlock, EStateM.run_bind, hdecl]
    dsimp only
    rw [execBlock, EStateM.run_bind, execStmt, run_ticked (by omega),
      show (0 : Int) = 12000 - (12000 : Nat) from rfl, hloop]
    rfl
  rw [callFunction, EStateM.run_bind, run_tick (by exact (by omega : 0 < rules.maxCycles))]
  have hroom : ¬(0 : Nat) ≥ rules.frameLimit.frames := by omega
  refine (EStateM.run_bind ..).trans ?_
  refine (congrArg (EStateM.run · _) (if_neg hroom)).trans ?_
  -- the call itself
  have hrun (result : Control) (o : AstOracle)
      (hbody : (execBlock rules (callFunction rules counting fuel) fuel countingMain.body).run
        ⟨∅, [⟨[∅]⟩], [], 1⟩ = .ok result o) :
      (do
        modify fun oracle : AstOracle ↦ { oracle with
          frames := ⟨[rootScope ∅ countingMain.params []]⟩ :: oracle.frames }
        let result ← execBlock rules (callFunction rules counting fuel) fuel countingMain.body
        modify fun oracle : AstOracle ↦ { oracle with frames := oracle.frames.tail }
        return normalizeI32 result.value : OracleM Int).run ⟨∅, [], [], 1⟩ =
          .ok (normalizeI32 result.value) { o with frames := o.frames.tail } := by
    rw [EStateM.run_bind]
    refine (EStateM.run_bind ..).trans ?_
    erw [hbody]
    rfl
  exact hrun _ _ hbody

theorem runOf_counting {limit : Nat} (h : 84007 ≤ limit) :
    runOf (early limit) counting = .ok 0 ⟨∅, [], [], 84007⟩ :=
  @run_countingMain limit (early limit) h (show 0 < MiniLang.maxFrames by decide)
    (show 12000 < limit by omega)

theorem run_counting : run counting = some ⟨true, 0, .none, "", []⟩ := by
  rw [run_eq_outcome, runOf_counting (by rw [MiniLang.maxCycles]; omega)]
  rfl

/-! The machine, in the loop. -/

def countingCode : List Instruction := [⟨.loadConst, 0, 0⟩, ⟨.storeLocal, 0, 0⟩,
  ⟨.loadLocal, 0, 0⟩, ⟨.loadConst, 12000, 0⟩, ⟨.lt, 0, 0⟩, ⟨.jumpIfFalse, 11, 0⟩,
  ⟨.loadLocal, 0, 0⟩, ⟨.loadConst, 1, 0⟩, ⟨.add, 0, 0⟩, ⟨.storeLocal, 0, 0⟩, ⟨.jump, 2, 0⟩,
  ⟨.loadConst, 0, 0⟩, ⟨.return, 0, 0⟩]

theorem compile_counting : (compile counting).instructions = countingCode ∧
    entryPc counting (compile counting).mainFuncId = 0 ∧
    (compile counting).functions.lookup (compile counting).mainFuncId =
      some ⟨"main", 0, 0, 0, 1⟩ ∧
    SemanticAnalyzer.analyze counting = .ok () := by
  decide +kernel

/-- The machine in the loop. -/
def counted (pc : Nat) (stack : List Int) (value : Int) (cycles : Nat) : Vm :=
  { startState counting with
    stack := stack
    locals := value :: List.replicate 1023 i64Min
    pc := pc
    cycles := cycles }

variable {pc : Nat} {stack : List Int} {instr : Instruction}

theorem start_counting : startState counting = counted 0 [] i64Min 0 := by
  rw [counted, startState, compile_counting.2.1]
  rfl

theorem fetches_counted (h : countingCode[pc]? = some instr) :
    Vm.Fetches (compile counting) (counted pc stack value cycles) instr :=
  ⟨⟨rfl, rfl⟩, List.cons_ne_nil _ _, by rw [compile_counting.1]; exact h⟩

theorem current_counted :
    Vm.Current (compile counting) (counted pc stack value cycles).callStack 0 1 where
  frame := ⟨_, _, _, rfl, rfl, compile_counting.2.2.1, rfl⟩
  limit := by decide

theorem step_counted {x : Int} {stack' : List Int}
    (h : Vm.Puts (compile counting) (counted pc stack value cycles) x stack')
    (hroom : stack'.length < maxOperandStack) :
    Vm.step (compile counting) (counted pc stack value cycles) =
      .inl (counted (pc + 1) (x :: stack') value (cycles + 1)) :=
  h.step hroom

theorem step_counted_load (h : countingCode[pc]? = some ⟨.loadLocal, 0, 0⟩)
    (hvalue : IsI32 value) : Vm.step (compile counting) (counted pc [] value cycles) =
      .inl (counted (pc + 1) [value] value (cycles + 1)) :=
  step_counted (@Vm.puts_loadLocal _ _ _ 0 0 1 0 (fetches_counted h) current_counted Nat.one_pos rfl
    hvalue.ne_i64Min) (by decide)

theorem step_counted_store {x : Int} (h : countingCode[pc]? = some ⟨.storeLocal, 0, 0⟩) :
    Vm.step (compile counting) (counted pc [x] value cycles) =
      .inl (counted (pc + 1) [] x (cycles + 1)) :=
  @Vm.step_storeLocal _ _ _ _ 0 0 1 0 (fetches_counted h) rfl current_counted Nat.one_pos
    (List.length_pos_of_ne_nil (List.cons_ne_nil _ _))

theorem step_counted_stay (h : countingCode[pc]? = some ⟨.jumpIfFalse, 11, 0⟩) :
    Vm.step (compile counting) (counted pc [1] value cycles) =
      .inl (counted (pc + 1) [] value (cycles + 1)) :=
  Vm.step_jumpIfFalse (fetches_counted h) rfl

/-- One iteration. -/
theorem reaches_iteration (hvalue : 0 ≤ value) (hlt : value < 12000) :
    Stepping.Reaches (Vm.step (compile counting)) (counted 2 [] value cycles)
      (counted 2 [] (value + 1) (cycles + 9)) := by
  have hi32 : IsI32 value := by
    rw [IsI32]
    omega
  have hflag : flag (value < (12000 : Int32).toInt) = 1 := if_pos hlt
  have hsum : normalizeI32 (wrapI64 (value + (1 : Int32).toInt)) = value + 1 := by
    rw [show (1 : Int32).toInt = 1 from rfl, wrapI64, Int.bmod_eq_of_le (by omega) (by omega)]
    exact normalizeI32_eq (by rw [IsI32]; omega)
  have hroom : [value].length < maxOperandStack := by
    rw [List.length_singleton]
    decide
  refine .head (step_counted_load rfl hi32) ?_
  refine .head (step_counted (Vm.puts_loadConst (fetches_counted rfl)) hroom) ?_
  refine .head (step_counted (Vm.puts_binary (f := fun a b ↦ flag (a < b)) (fetches_counted rfl)
    rfl rfl) (by decide)) ?_
  rw [hflag]
  refine .head (step_counted_stay rfl) ?_
  refine .head (step_counted_load rfl hi32) ?_
  refine .head (step_counted (Vm.puts_loadConst (fetches_counted rfl)) hroom) ?_
  refine .head (step_counted (Vm.puts_binary (f := fun a b ↦ normalizeI32 (wrapI64 (a + b)))
    (fetches_counted rfl) rfl rfl) (by decide)) ?_
  rw [hsum]
  refine .head (step_counted_store rfl) ?_
  refine .head (Vm.step_jump (fetches_counted rfl)) ?_
  exact .refl _

end

theorem reaches_counted (n : Nat) (hn : n ≤ 12000) :
    Stepping.Reaches (Vm.step (compile counting)) (counted 2 [] 0 2) (counted 2 [] n (2 + 9 * n)) := by
  induction n with
  | zero => exact .refl _
  | succ n ih =>
    exact (ih (by omega)).trans (reaches_iteration (Int.natCast_nonneg n) (by omega))

theorem passes_counting : Vm.Passes (compile counting) MiniLang.maxCycles (startState counting) := by
  have hinit : Stepping.Reaches (Vm.step (compile counting)) (startState counting)
      (counted 2 [] 0 2) := by
    rw [start_counting]
    refine .head (step_counted (Vm.puts_loadConst (fetches_counted rfl)) (by decide)) ?_
    refine .head (step_counted_store rfl) ?_
    exact .refl _
  refine ⟨_, hinit.trans (reaches_counted 12000 le_rfl), ?_⟩
  show MiniLang.maxCycles ≤ 2 + 9 * 12000
  rw [MiniLang.maxCycles]
  omega

def countingSource : List UInt8 :=
  asciiBytes "func main() \x7b int i = 0; while (i < 12000) \x7b i = i + 1; \x7d \x7d"

def countingTokens : List Token := [⟨.kwFunc, ⟨1, 1⟩⟩, ⟨.identifier "main", ⟨1, 6⟩⟩,
  ⟨.lParen, ⟨1, 10⟩⟩, ⟨.rParen, ⟨1, 11⟩⟩, ⟨.lBrace, ⟨1, 13⟩⟩, ⟨.kwInt, ⟨1, 15⟩⟩,
  ⟨.identifier "i", ⟨1, 19⟩⟩, ⟨.assign, ⟨1, 21⟩⟩, ⟨.intLiteral 0, ⟨1, 23⟩⟩, ⟨.semicolon, ⟨1, 24⟩⟩,
  ⟨.kwWhile, ⟨1, 26⟩⟩, ⟨.lParen, ⟨1, 32⟩⟩, ⟨.identifier "i", ⟨1, 33⟩⟩, ⟨.lt, ⟨1, 35⟩⟩,
  ⟨.intLiteral 12000, ⟨1, 37⟩⟩, ⟨.rParen, ⟨1, 42⟩⟩, ⟨.lBrace, ⟨1, 44⟩⟩, ⟨.identifier "i", ⟨1, 46⟩⟩,
  ⟨.assign, ⟨1, 48⟩⟩, ⟨.identifier "i", ⟨1, 50⟩⟩, ⟨.plus, ⟨1, 52⟩⟩, ⟨.intLiteral 1, ⟨1, 54⟩⟩,
  ⟨.semicolon, ⟨1, 55⟩⟩, ⟨.rBrace, ⟨1, 57⟩⟩, ⟨.rBrace, ⟨1, 59⟩⟩, ⟨.eof, ⟨1, 60⟩⟩]

theorem tokenize_counting : tokenize countingSource = countingTokens := by decide +kernel

theorem counting_accepted : Accepted countingSource counting := by
  refine ⟨?_, compile_counting.2.2.2⟩
  rw [Parsed, tokenize_counting]
  rfl

theorem not_limits_agree : ¬∀ (text : List UInt8) (p : Program) (result : VmResult)
    (outcome : OracleOutcome), Accepted text p → p.DeclsAgree → p.NoMainCalls →
    Vm.Returns (compile p) MiniLang.maxCycles result → run p = some outcome →
    result.trapCode ≠ .stackOverflow → outcome.trapCode ≠ .stackOverflow →
    (result.trapCode = .cycleLimit ↔ outcome.trapCode = .cycleLimit) := by
  intro hall
  have hagree : counting.DeclsAgree := by
    intro f hf d hd d' hd' _
    obtain rfl := List.mem_singleton.mp hf
    exact congrArg Prod.snd ((List.mem_singleton.mp hd).trans (List.mem_singleton.mp hd').symm)
  have hquiet : counting.NoMainCalls := by
    refine ⟨fun func hfunc ↦ ?_, fun _ hglob ↦ nomatch hglob⟩
    obtain rfl := List.mem_singleton.mp hfunc
    decide
  have hcount : (compile counting).instructions.length ≤ maxInstructions := by
    rw [compile_counting.1]
    decide
  obtain ⟨result, hreturns, hcode⟩ := exists_returns_of_passes counting_accepted hcount
    (by decide) passes_counting
  have hsame := hall countingSource counting result _ counting_accepted hagree hquiet hreturns
    run_counting (by rw [hcode]; decide) (by decide)
  exact nomatch hsame.mp hcode

end AstOracle

end MiniLang
