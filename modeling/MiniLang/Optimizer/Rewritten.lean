import MiniLang.Lib.Peephole
import MiniLang.Machine.Preflight
import MiniLang.Machine.Relocated
import MiniLang.Optimizer.Patterns

/-!
# Runs of rewritten code

The code of a single function without jumps, and what patterns and dead code elimination make of it.
The machines go from one pair of corresponding positions to the next: an instruction that stayed
does the same in both, and a block that was replaced leaves the same operands as its replacement.

A run of the old code that ends at a resource limit says nothing of the new one, which needs fewer
cycles and less room for operands. Any other run ends in the same way.

## Limits

The new code may go on where the old one is at a limit: in the middle of a block, before a
replacement that is shorter, or at the entry of a block that needs one operand more. `Limited`
collects these ends, together with the panic of the value machine, which is no end of a run of
verified code.

## The invariant

`Rewritten` relates the rest of the old code to the rest of the new one, and `Level` the states at
two such positions. `Advance` is one stretch of both runs from such states: the old machine takes at
least one step, the new one no more, and they are level again; or the old run ends. The theorem
about runs is an induction on the fuel of the old one.
-/

namespace MiniLang

namespace ValueVm

open Optimizer Peephole

variable {program : CompiledProgram} {storage : Option Nat} {instructions' : List Instruction}
  {s t : ValueVm}

/-- The program with other instructions. -/
def withInstructions (program : CompiledProgram) (instructions' : List Instruction) :
    CompiledProgram :=
  { program with instructions := instructions' }

/-- Results that differ in where the run ended and in what it cost. -/
structure SameOutcome (result result' : VmResult) : Prop where
  success : result'.success = result.success
  returnValue : result'.returnValue = result.returnValue
  trapCode : result'.trapCode = result.trapCode
  output : result'.output = result.output
  cycles : result'.cycles ≤ result.cycles

theorem SameOutcome.refl (result : VmResult) : SameOutcome result result :=
  ⟨rfl, rfl, rfl, rfl, le_rfl⟩

theorem SameOutcome.trans {r r' r'' : VmResult} (h : SameOutcome r r') (h' : SameOutcome r' r'') :
    SameOutcome r r'' :=
  ⟨h'.success.trans h.success, h'.returnValue.trans h.returnValue, h'.trapCode.trans h.trapCode,
    h'.output.trans h.output, h'.cycles.trans h.cycles⟩

/-- Alike at corresponding positions. -/
abbrev Level (instructions instructions' : List Instruction) : ValueVm → ValueVm → Prop :=
  Alike (Meets Replaces Leaves instructions instructions')
    (Meets Replaces Leaves instructions instructions')

def HaltAlike (halt halt' : VmHalt) : Prop :=
  ∃ result result', halt = .result result ∧ halt' = .result result' ∧ SameOutcome result result'

/-- The run is at a limit, or it gave up. -/
def Limited (halt : VmHalt) : Prop :=
  halt = .panic ∨ ∃ result, halt = .result result ∧
    (result.trapCode = .cycleLimit ∨ result.trapCode = .stackOverflow)

theorem Alike.inBudget {M N : Nat → Nat → Prop} (h : Alike M N s t) {k j : Nat} (hjk : j ≤ k)
    (hbudget : s.InBudget k) : t.InBudget j := by
  rw [InBudget, ← h.maxCycles]
  have hcycles := h.cycles
  exact hbudget.imp_right fun hle ↦ by omega

theorem limited_of_not_inBudget (hbudget : ¬s.InBudget 1) : ∃ halt,
    step program storage s = .inr halt ∧ Limited halt := by
  obtain ⟨halt, hstep, hends⟩ := @step_of_not_inBudget program storage s hbudget
  refine ⟨halt, hstep, ?_⟩
  rcases hends (.ok []) with hpanic | ⟨result, hresult, hlimit | ⟨hcode, -⟩⟩
  · exact .inl hpanic
  · exact .inr ⟨result, hresult, .inl hlimit⟩
  · cases hcode

/-! ## One instruction -/

section Kept

variable {M N : Nat → Nat → Prop} {r r' : EStateM.Result Stop ValueVm Flow}

/-- Both machines are alike after an instruction, or both have ended. -/
def NextAlike (M : Nat → Nat → Prop) (next next' : ValueVm ⊕ VmHalt) : Prop :=
  (∃ s t, next = .inl s ∧ next' = .inl t ∧ Alike M M s t) ∨
    ∃ halt, next = .inr halt ∧ (Limited halt ∨ ∃ halt', next' = .inr halt' ∧ HaltAlike halt halt')

theorem haltAlike_trap (h : SameOutput s t) (code : TrapCode) (message : String) :
    HaltAlike (.result (s.makeTrapResult code message))
      (.result (t.makeTrapResult code message)) :=
  ⟨_, _, rfl, rfl, rfl, rfl, rfl, h.1.symm, h.2⟩

theorem haltAlike_exit (h : SameOutput s t) (value : Int32) :
    HaltAlike (.result (s.exitResult value)) (.result (t.exitResult value)) :=
  ⟨_, _, rfl, rfl, rfl, rfl, rfl, h.1.symm, h.2⟩

theorem nextAlike_error {stop : Stop} {α : Type} {Q : α → Flow → ValueVm → ValueVm → Prop}
    (h : (EStateM.Result.error stop s : EStateM.Result Stop ValueVm α).Matches (· = .panic) Q
      SameOutput r') : NextAlike M (afterInstruction (.error stop s)) (afterInstruction r') := by
  cases stop with
  | panic => exact .inr ⟨_, rfl, .inl (.inl rfl)⟩
  | trap code message =>
    obtain ⟨t, rfl, hsame⟩ := h.error_inv Stop.noConfusion
    exact .inr ⟨_, rfl, .inr ⟨_, rfl, haltAlike_trap hsame code message⟩⟩

theorem nextAlike_leaves (h : r.Matches (· = .panic) (LeavesAlike M) SameOutput r') :
    NextAlike M (afterInstruction r) (afterInstruction r') := by
  cases r with
  | error stop s => exact nextAlike_error h
  | ok flow s =>
    obtain ⟨flow', t, rfl, ⟨rfl, rfl, halike⟩ | ⟨value, rfl, rfl, hsame⟩⟩ := h.ok_inv
    · exact .inl ⟨s, t, rfl, rfl, halike⟩
    · exact .inr ⟨_, rfl, .inr ⟨_, rfl, haltAlike_exit hsame value⟩⟩

theorem nextAlike_flow (hnext : ∀ pc pc', N pc pc' → M (pc + 1) (pc' + 1))
    (h : r.Matches (· = .panic) (FlowAlike M N) SameOutput r') :
    NextAlike M (afterInstruction r) (afterInstruction r') := by
  cases r with
  | error stop s => exact nextAlike_error h
  | ok flow s =>
    obtain ⟨flow', t, rfl, ⟨rfl, rfl, halike⟩ | hleaves⟩ := h.ok_inv
    · refine .inl ⟨_, _, rfl, rfl, halike.frames, halike.fresh, halike.globals, halike.output,
        halike.maxCycles, halike.cycles, hnext _ _ halike.pc⟩
    · exact nextAlike_leaves hleaves

/-- An instruction within the budget. -/
theorem nextAlike_step {program' : CompiledProgram} {instr : Instruction} (h : Alike M M s t)
    (hinstr : program.instructions[s.pc]? = some instr)
    (hinstr' : program'.instructions[t.pc]? = some instr)
    (hrun : s.InBudget 1 → NextAlike M
      (afterInstruction ((executeInstruction program storage instr.opcode instr.arg1 instr.arg2).run
        { s with cycles := s.cycles + 1 }))
      (afterInstruction ((executeInstruction program' storage instr.opcode instr.arg1
        instr.arg2).run { t with cycles := t.cycles + 1 }))) :
    NextAlike M (step program storage s) (step program' storage t) := by
  by_cases hbudget : s.InBudget 1
  · rw [step_of_inBudget hinstr hbudget, step_of_inBudget hinstr' (h.inBudget le_rfl hbudget)]
    exact hrun hbudget
  · obtain ⟨halt, hstep, hlimited⟩ := @limited_of_not_inBudget program storage s hbudget
    exact .inr ⟨halt, hstep, .inl hlimited⟩

/-- An instruction that control goes on behind. -/
theorem nextAlike_keep {program' : CompiledProgram} {instr : Instruction}
    (hfunctions : program'.functions = program.functions)
    (hglobals : program'.globals = program.globals)
    (hentry : ∀ id func, program.functions.lookup id = some func → M func.entryPc func.entryPc)
    (h : Alike M M s t) (hinstr : program.instructions[s.pc]? = some instr)
    (hinstr' : program'.instructions[t.pc]? = some instr)
    (hjump : instr.opcode ∉ [.jump, .jumpIfFalse, .jumpIfTrue])
    (hnext : M (s.pc + 1) (t.pc + 1)) :
    NextAlike M (step program storage s) (step program' storage t) := by
  refine nextAlike_step h hinstr hinstr' fun _ ↦ ?_
  refine nextAlike_flow (N := fun pc pc' ↦ M (pc + 1) (pc' + 1)) (fun _ _ ↦ id) ?_
  refine stepsAlike_executeInstruction hfunctions hglobals (fun _ _ ↦ id) hentry hjump _ _ _ _ ?_
  exact ⟨h.frames, h.fresh, h.globals, h.output, h.maxCycles, Nat.succ_le_succ h.cycles, hnext⟩

/-- An instruction that control does not go on behind. -/
theorem nextAlike_stop {program' : CompiledProgram} {instr : Instruction} (h : Alike M M s t)
    (hinstr : program.instructions[s.pc]? = some instr)
    (hinstr' : program'.instructions[t.pc]? = some instr) (hleaves : Leaves instr) :
    NextAlike M (step program storage s) (step program' storage t) := by
  refine nextAlike_step h hinstr hinstr' fun _ ↦ nextAlike_leaves (M := M) ?_
  obtain ⟨opcode, arg1, arg2⟩ := instr
  have halike : Alike M M { s with cycles := s.cycles + 1 } { t with cycles := t.cycles + 1 } :=
    ⟨h.frames, h.fresh, h.globals, h.output, h.maxCycles, Nat.succ_le_succ h.cycles, h.pc⟩
  rcases hleaves with rfl | rfl
  · exact leavesAlike_ret _ _ halike
  · exact EStateM.Result.matches_of_free rfl

theorem step_of_outside (hs : program.instructions[s.pc]? = none) (hbudget : s.InBudget 1) :
    step program storage s = .inr (.result (s.makeTrapResult .invalidInstruction
      s!"PC out of bounds: {s.pc}")) := by
  rw [step, if_neg, hs]
  rintro ⟨hpos, hle⟩
  rcases hbudget with hzero | hbudget
  · exact absurd hzero hpos.ne'
  · exact absurd hbudget (Nat.not_le.mpr (Nat.lt_succ_of_le hle))

/-- Behind the code both machines stop. -/
theorem nextAlike_outside {program' : CompiledProgram} (h : Alike M M s t)
    (hs : program.instructions[s.pc]? = none) (ht : program'.instructions[t.pc]? = none) :
    NextAlike M (step program storage s) (step program' storage t) := by
  by_cases hbudget : s.InBudget 1
  · refine .inr ⟨_, step_of_outside hs hbudget, .inr ⟨_,
      step_of_outside ht (h.inBudget le_rfl hbudget), ?_⟩⟩
    exact ⟨_, _, rfl, rfl, rfl, rfl, rfl, h.output.symm, h.cycles⟩
  · obtain ⟨halt, hstep, hlimited⟩ := @limited_of_not_inBudget program storage s hbudget
    exact .inr ⟨halt, hstep, .inl hlimited⟩

end Kept

/-! ## Blocks -/

/-- An instruction on operands takes or puts one first. -/
theorem executeInstruction_onOperands {instr : Instruction} (h : OnOperands instr) :
    (∃ f, executeInstruction program storage instr.opcode instr.arg1 instr.arg2 = pop >>= f) ∨
      ∃ f, executeInstruction program storage instr.opcode instr.arg1 instr.arg2 =
        push instr.arg1 >>= f := by
  obtain ⟨opcode, arg1, arg2⟩ := instr
  rcases h with h | h
  · simp only [List.mem_cons, List.not_mem_nil, or_false] at h
    rcases h with rfl | rfl | rfl | rfl | rfl
    · exact .inr ⟨_, rfl⟩
    all_goals exact .inl ⟨_, rfl⟩
  · obtain ⟨f, hf⟩ := Option.isSome_iff_exists.mp h
    exact .inl ⟨_, executeInstruction_operator hf arg1 arg2⟩

/-- Without a frame for the operands, or with an array on top of them, the machine gives up. -/
theorem limited_of_noFrame {instr : Instruction} (h : OnOperands instr)
    (hinstr : program.instructions[s.pc]? = some instr) (hbudget : s.InBudget 1)
    (hframe : ¬(s.fresh = none ∧ ∃ frame frames, s.frames = frame :: frames)) :
    ∃ halt, step program storage s = .inr halt ∧ Limited halt := by
  rw [step_of_inBudget hinstr hbudget]
  rcases @executeInstruction_onOperands program storage instr h with ⟨f, hexec⟩ | ⟨f, hexec⟩
  · rw [hexec, EStateM.run_bind]
    rcases pop_cases { s with cycles := s.cycles + 1 } with
      ⟨vm', hrun⟩ | ⟨frame, frames, _, _, hfresh, hframes, -, -⟩
    · rw [hrun]
      exact ⟨_, rfl, .inl rfl⟩
    · exact absurd ⟨hfresh, frame, frames, hframes⟩ hframe
  · rw [hexec, EStateM.run_bind]
    rcases push_cases instr.arg1 { s with cycles := s.cycles + 1 } with
      ⟨vm', hrun⟩ | ⟨hfresh, ⟨-, hrun⟩ | ⟨-, frame, frames, hframes, -⟩⟩
    · rw [hrun]
      exact ⟨_, rfl, .inl rfl⟩
    · rw [hrun]
      exact ⟨_, rfl, .inr ⟨_, rfl, .inr rfl⟩⟩
    · exact absurd ⟨hfresh, frame, frames, hframes⟩ hframe

/-- The machines before and after a block and its replacement. -/
theorem blockAlike {program' : CompiledProgram} {M : Nat → Nat → Prop}
    {old new : List Instruction} (hreplaces : Replaces old new) (h : Alike M M s t)
    (hold : old <+: program.instructions.drop s.pc)
    (hnew : new <+: program'.instructions.drop t.pc)
    (hnext : M (s.pc + old.length) (t.pc + new.length)) :
    (∃ s' t', (∀ n, Stepping.run (step program storage) (n + old.length) s =
        Stepping.run (step program storage) n s') ∧
      (∀ n, Stepping.run (step program' storage) (n + new.length) t =
        Stepping.run (step program' storage) n t') ∧ Alike M M s' t') ∨
    ∃ k halt, (∀ n, Stepping.run (step program storage) (n + k) s = some halt) ∧ Limited halt := by
  by_cases hframe : s.fresh = none ∧ ∃ frame frames, s.frames = frame :: frames
  · obtain ⟨hfresh, frame, frames, hframes⟩ := hframe
    obtain ⟨frame', frames', hframes', halike, hrest⟩ := h.exists_frame hframes
    have hroom : roomOver frames' = roomOver frames := by
      rw [roomOver, roomOver, ints_eq_of_frames hrest]
    by_cases hruns : s.InBudget old.length ∧
        ∃ stack, blockOperands (roomOver frames) old frame.operands = .ok stack
    · obtain ⟨hbudget, stack, hstack⟩ := hruns
      have hstack' : blockOperands (roomOver frames') new frame'.operands = .ok stack := by
        rw [hroom, ← halike.operands]
        exact hreplaces.same _ _ _ hstack
      refine .inl ⟨s.after frame frames old.length stack, t.after frame' frames' new.length stack,
        run_block hfresh hframes hold hreplaces.old_onOperands hbudget hstack,
        run_block (h.fresh.symm.trans hfresh) hframes' hnew hreplaces.new_onOperands
          (h.inBudget hreplaces.length_le hbudget) hstack', ?_⟩
      exact ⟨.cons ⟨halike.returnPc, halike.cells, rfl⟩ hrest, h.fresh, h.globals, h.output,
        h.maxCycles, Nat.add_le_add h.cycles hreplaces.length_le, hnext⟩
    · -- the old block ends at a limit
      obtain ⟨k, halt, hrun, hends⟩ := @run_block_ends program storage s frame frames old hfresh
        hframes hold hreplaces.old_onOperands
        fun stack hstack ↦ ⟨hreplaces.nonempty, fun hbudget ↦ hruns ⟨hbudget, stack, hstack⟩⟩
      refine .inr ⟨k, halt, hrun, ?_⟩
      rcases hends with hpanic | ⟨result, hresult, hlimit | ⟨hcode, hne⟩⟩
      · exact .inl hpanic
      · exact .inr ⟨result, hresult, .inl hlimit⟩
      · rcases hreplaces.missing _ _ _ hcode with hover | hunder
        · exact .inr ⟨result, hresult, .inr hover⟩
        · exact absurd hunder hne
  · -- the first instruction of the old block has no operands
    cases old with
    | nil => exact absurd rfl hreplaces.nonempty
    | cons instr old =>
      obtain ⟨hinstr, -⟩ := getElem?_of_prefix hold
      have hend : ∃ halt, step program storage s = .inr halt ∧ Limited halt := by
        by_cases hbudget : s.InBudget 1
        · exact limited_of_noFrame (hreplaces.old_onOperands instr List.mem_cons_self) hinstr hbudget
            hframe
        · exact limited_of_not_inBudget hbudget
      obtain ⟨halt, hstep, hlimited⟩ := hend
      exact .inr ⟨1, halt, fun n ↦ Stepping.run_of_end hstep, hlimited⟩

/-! ## Runs -/

/-- From two states on, both machines get to alike states again, the second one in no more steps, or
the first one ends, and the second one alike unless that is at a limit. -/
def Advance (program program' : CompiledProgram) (storage : Option Nat)
    (M : Nat → Nat → Prop) (s t : ValueVm) : Prop :=
  (∃ k j s' t', 0 < k ∧ j ≤ k ∧
    (∀ n, Stepping.run (step program storage) (n + k) s =
      Stepping.run (step program storage) n s') ∧
    (∀ n, Stepping.run (step program' storage) (n + j) t =
      Stepping.run (step program' storage) n t') ∧ Alike M M s' t') ∨
  ∃ k halt, (∀ n, Stepping.run (step program storage) (n + k) s = some halt) ∧
    (Limited halt ∨ ∃ halt', step program' storage t = .inr halt' ∧ HaltAlike halt halt')

theorem advance_of_next {program' : CompiledProgram} {M : Nat → Nat → Prop}
    (h : NextAlike M (step program storage s) (step program' storage t)) :
    Advance program program' storage M s t := by
  rcases h with ⟨s', t', hs, ht, halike⟩ | ⟨halt, hs, hend⟩
  · exact .inl ⟨1, 1, s', t', Nat.one_pos, le_rfl, fun n ↦ Stepping.run_of_next hs,
      fun n ↦ Stepping.run_of_next ht, halike⟩
  · exact .inr ⟨1, halt, fun n ↦ Stepping.run_of_end hs, hend⟩

/-- **One step of the comparison**: an instruction, or a block and its replacement. -/
theorem advance_rewritten {program' : CompiledProgram}
    (hfunctions : program'.functions = program.functions)
    (hglobals : program'.globals = program.globals) (hjumps : NoJumps program.instructions)
    (hentry : ∀ id func, program.functions.lookup id = some func →
      Meets Replaces Leaves program.instructions program'.instructions func.entryPc func.entryPc)
    (h : Level program.instructions program'.instructions s t) :
    Advance program program' storage
      (Meets Replaces Leaves program.instructions program'.instructions) s t := by
  rcases h.pc.cases with ⟨hs, ht⟩ | ⟨instr, hs, ht, hleaves | hnext⟩ |
    ⟨old, new, hreplaces, hold, hnew, hnext⟩
  · exact advance_of_next (nextAlike_outside h hs ht)
  · exact advance_of_next (nextAlike_stop h hs ht hleaves)
  · exact advance_of_next (nextAlike_keep hfunctions hglobals hentry h hs ht
      (hjumps instr (List.mem_of_getElem? hs)) hnext)
  · rcases @blockAlike program storage s t program' _ old new hreplaces h hold hnew hnext with
      ⟨s', t', hs, ht, halike⟩ | ⟨k, halt, hrun, hlimited⟩
    · exact .inl ⟨old.length, new.length, s', t', List.length_pos_iff.mpr hreplaces.nonempty,
        hreplaces.length_le, hs, ht, halike⟩
    · exact .inr ⟨k, halt, hrun, .inl hlimited⟩

/-- Fewer instructions pass the preflight as well. -/
theorem validate_withInstructions (hvalidate : program.validate = .ok ())
    (hlength : instructions'.length ≤ program.instructions.length) :
    (withInstructions program instructions').validate = .ok () := by
  rw [CompiledProgram.validate] at hvalidate ⊢
  split at hvalidate
  · cases hvalidate
  · next hcount =>
    have hcount' : ¬(withInstructions program instructions').instructions.length >
        maxInstructions := fun hover ↦ hcount (Nat.lt_of_lt_of_le hover hlength)
    rw [if_neg hcount']
    exact hvalidate

/-- **Runs of rewritten code.** They end as those of the old code do, no later, unless that is at a
limit. -/
theorem run_rewritten (hvalidate : program.validate = .ok ())
    (hrewrites : Rewrites Replaces Leaves program.instructions instructions')
    (hlength : instructions'.length ≤ program.instructions.length)
    (hjumps : NoJumps program.instructions)
    (hentry : ∀ id func, program.functions.lookup id = some func → func.entryPc = 0)
    {fuel maxCycles : Nat} {halt : VmHalt}
    (hrun : run program storage fuel (init maxCycles) = some halt) : Limited halt ∨ ∃ halt',
      run (withInstructions program instructions') storage fuel (init maxCycles) = some halt' ∧
        HaltAlike halt halt' := by
  rw [run, start, hvalidate] at hrun
  rw [run, start, validate_withInstructions hvalidate hlength]
  have hlookup : (withInstructions program instructions').functions.lookup
      (withInstructions program instructions').mainFuncId =
        program.functions.lookup program.mainFuncId := rfl
  rw [hlookup]
  cases hmain : program.functions.lookup program.mainFuncId with
  | none =>
    rw [hmain] at hrun
    obtain rfl := Option.some_inj.mp hrun
    exact .inr ⟨_, rfl, _, _, rfl, rfl, .refl _⟩
  | some main =>
    rw [hmain] at hrun
    have hmeets : ∀ id func, program.functions.lookup id = some func →
        Meets Replaces Leaves program.instructions instructions' func.entryPc func.entryPc := by
      intro id func hfunc
      rw [hentry id func hfunc]
      exact Meets.start hrewrites
    have hfits : program.instructions.length ≤ usizeMax := by
      have hcount := (preflight_of_validate hvalidate).count
      exact hcount.trans (by decide)
    refine Stepping.run_shorter (fun s t h ↦ @advance_rewritten program storage s t
      (withInstructions program instructions') rfl rfl hjumps hmeets h) ?_ hrun
    refine ⟨.cons ⟨?_, rfl, rfl⟩ .nil, rfl, rfl, rfl, rfl, le_rfl, hmeets _ _ hmain⟩
    exact Meets.outside hfits (hlength.trans hfits)

end ValueVm

end MiniLang
