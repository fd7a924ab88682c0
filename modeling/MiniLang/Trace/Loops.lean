import MiniLang.Machine.Vm
import MiniLang.Trace.Recording

/-!
# The loop both machines run

Both machines run the same loop: they check the cycle limit, fetch an instruction, execute it, move
on if it has not moved the program counter itself, and append its event. What a trace tells of a
run follows from the shape of this loop and from what the parts leave unchanged, not from what the
instructions do.

## The construction

`Loop.step` is one iteration over the parts of a machine, and `Loop.event` the event it appends,
which reads the state before and after only through their snapshots. `Loop.closing` runs the same
iteration for the outcome alone.

## The invariant

The state a step leads to has the trace of the state before with one more event, which starts at
the snapshot before and ends at the one after (`Loop.told_step`). For this an instruction has to
count one cycle and leave the trace alone, also when it traps, and moving on may change neither.
Hence the loop is a `Recorder`.
-/

namespace MiniLang

/-- The parts of a machine that executes an instruction in each iteration. -/
structure Loop (σ ρ : Type) where
  /-- No cycle is left. -/
  limited : σ → Prop
  [decidableLimited : DecidablePred limited]
  fetch : σ → Option Instruction
  /-- Execute the instruction, and say whether the loop moves on to the next one. -/
  execute : Instruction → σ → EStateM.Result Stop σ Bool
  advance : σ → Bool → σ
  /-- No frame is left. -/
  idle : σ → Prop
  [decidableIdle : DecidablePred idle]
  snapshot : σ → Snapshot
  trace : σ → Option (List TraceEvent)
  record : σ → TraceEvent → σ
  limit : σ → ρ
  lost : σ → ρ
  exited : σ → ρ × σ
  trapped : TrapCode → String → σ → ρ
  crashed : ρ
  /-- How a run has ended, unless the program has crashed. -/
  verdict : ρ → Option TraceOutcome
  execute_ticks : ∀ instr s, (execute instr s).Post
    (fun _ t ↦ (snapshot t).cycle = (snapshot s).cycle + 1 ∧ trace t = trace s)
    fun _ t ↦ (snapshot t).cycle = (snapshot s).cycle + 1 ∧ trace t = trace s
  cycle_advance : ∀ s moves, (snapshot (advance s moves)).cycle = (snapshot s).cycle
  trace_advance : ∀ s moves, trace (advance s moves) = trace s
  snapshot_record : ∀ s event, snapshot (record s event) = snapshot s
  trace_record : ∀ s event, trace (record s event) = (trace s).map (· ++ [event])
  trace_exited : ∀ s, trace (exited s).2 = trace s
  verdict_limit : ∀ s, verdict (limit s) ≠ some .exit
  verdict_lost : ∀ s, verdict (lost s) ≠ some .exit
  verdict_exited : ∀ s, verdict (exited s).1 = some .exit
  verdict_trapped : ∀ code message s, verdict (trapped code message s) = some (.trap code message)
  verdict_crashed : verdict crashed ≠ some .exit

namespace Loop

attribute [instance] decidableLimited decidableIdle

variable {σ ρ : Type} (L : Loop σ ρ) {s t : σ} {r : ρ}

/-- The event of an instruction. -/
def event (before after : σ) (instr : Instruction) (outcome : TraceOutcome) : TraceEvent where
  cycle := (L.snapshot after).cycle
  pc := (L.snapshot before).pc
  opcode := instr.opcode.debug
  arg1 := instr.arg1
  arg2 := instr.arg2
  stackBefore := (L.snapshot before).stack
  stackAfter := (L.snapshot after).stack
  frameDepthBefore := (L.snapshot before).depth
  frameDepthAfter := (L.snapshot after).depth
  nextPc := (L.snapshot after).pc
  outcome := outcome

/-- The state after an instruction, with its event appended. -/
def append (before after : σ) (instr : Instruction) (outcome : TraceOutcome) : σ :=
  L.record after (L.event before after instr outcome)

/-- One iteration: the next state, or how the run ends and the final state. -/
def step (s : σ) : σ ⊕ (ρ × σ) :=
  if L.limited s then .inr (L.limit s, s)
  else
    match L.fetch s with
    | none => .inr (L.lost s, s)
    | some instr =>
      match L.execute instr s with
      | .ok moves after =>
        if L.idle (L.advance after moves) then
          .inr (L.exited (L.append s (L.advance after moves) instr .exit))
        else .inl (L.append s (L.advance after moves) instr (if moves then .continue else .jump))
      | .error (.trap code message) after =>
        .inr (L.trapped code message after, L.append s after instr (.trap code message))
      | .error .panic after => .inr (L.crashed, after)

/-- How the next instruction ends the run, if it does. -/
def closing (s : σ) : Option TraceOutcome :=
  if L.limited s then none
  else
    match L.fetch s with
    | none => none
    | some instr =>
      match L.execute instr s with
      | .ok moves after => if L.idle (L.advance after moves) then some .exit else none
      | .error (.trap code message) _ => some (.trap code message)
      | .error .panic _ => none

/-- The instruction executed in the state traps. -/
def Traps (s : σ) (code : TrapCode) (message : String) : Prop :=
  ¬L.limited s ∧ ∃ instr after, L.fetch s = some instr ∧
    L.execute instr s = .error (.trap code message) after

theorem closing_eq_trap {code : TrapCode} {message : String} :
    L.closing s = some (.trap code message) ↔ L.Traps s code message := by
  constructor
  · intro h
    rw [closing] at h
    split at h
    · cases h
    next hlimit =>
    split at h
    · cases h
    next instr hinstr =>
    split at h
    · split at h <;> cases h
    · next hrun =>
      cases h
      exact ⟨hlimit, instr, _, hinstr, hrun⟩
    · cases h
  · rintro ⟨hlimit, instr, after, hinstr, hrun⟩
    refine (if_neg hlimit).trans ?_
    rw [hinstr]
    dsimp only
    rw [hrun]

theorem starts_event (hcycle : (L.snapshot t).cycle = (L.snapshot s).cycle + 1)
    (instr : Instruction) (outcome : TraceOutcome) :
    (L.event s t instr outcome).Starts (L.snapshot s) := ⟨hcycle, rfl, rfl, rfl⟩

theorem trace_append (h : L.trace t = L.trace s) (instr : Instruction) (outcome : TraceOutcome) :
    L.trace (L.append s t instr outcome) =
      (L.trace s).map (· ++ [L.event s t instr outcome]) := by
  rw [append, L.trace_record, h]

/-- What an iteration does to the trace, and what it tells of how the run ends. -/
def Told (s : σ) : σ ⊕ (ρ × σ) → Prop
  | .inl t => L.closing s = none ∧ ∃ event : TraceEvent, event.Starts (L.snapshot s) ∧
      event.after = L.snapshot t ∧ ¬event.outcome.Ends ∧
      L.trace t = (L.trace s).map (· ++ [event])
  | .inr (r, t) =>
    L.closing s = none ∧ L.trace t = L.trace s ∧ L.verdict r ≠ some .exit ∨
      ∃ event : TraceEvent, event.Starts (L.snapshot s) ∧ event.outcome.Ends ∧
        L.closing s = some event.outcome ∧ L.verdict r = some event.outcome ∧
        L.trace t = (L.trace s).map (· ++ [event])

/-- Every branch of an iteration. -/
theorem told_step (s : σ) : L.Told s (L.step s) := by
  by_cases hlimit : L.limited s
  · rw [step, if_pos hlimit]
    exact .inl ⟨if_pos hlimit, rfl, L.verdict_limit s⟩
  have hclosing : L.closing s = _ := if_neg hlimit
  rw [step, if_neg hlimit]
  cases hinstr : L.fetch s with
  | none =>
    rw [hinstr] at hclosing
    exact .inl ⟨hclosing, rfl, L.verdict_lost s⟩
  | some instr =>
    rw [hinstr] at hclosing
    dsimp only at hclosing ⊢
    have hticks := L.execute_ticks instr s
    cases hrun : L.execute instr s with
    | ok moves after =>
      rw [hrun] at hticks hclosing
      obtain ⟨hcycle, htrace⟩ := hticks
      rw [← L.cycle_advance after moves] at hcycle
      rw [← L.trace_advance after moves] at htrace
      dsimp only at hclosing ⊢
      by_cases hidle : L.idle (L.advance after moves)
      · rw [if_pos hidle] at hclosing ⊢
        refine .inr ⟨L.event s (L.advance after moves) instr .exit, L.starts_event hcycle instr _,
          trivial, hclosing, L.verdict_exited _, ?_⟩
        exact (L.trace_exited _).trans (L.trace_append htrace instr .exit)
      · rw [if_neg hidle] at hclosing ⊢
        refine ⟨hclosing, L.event s (L.advance after moves) instr _,
          L.starts_event hcycle instr _, (L.snapshot_record _ _).symm, ?_,
          L.trace_append htrace instr _⟩
        cases moves <;> exact id
    | error stop after =>
      rw [hrun] at hticks hclosing
      obtain ⟨hcycle, htrace⟩ := hticks
      cases stop with
      | trap code message =>
        exact .inr ⟨L.event s after instr (.trap code message), L.starts_event hcycle instr _,
          trivial, hclosing, L.verdict_trapped code message after,
          L.trace_append htrace instr _⟩
      | panic => exact .inl ⟨hclosing, htrace, L.verdict_crashed⟩

/-- The loop, as a machine that records. -/
def recorder : Recorder σ ρ where
  step := L.step
  trace := L.trace
  snapshot := L.snapshot
  verdict := L.verdict
  closing := L.closing
  next s t h := by
    have htold := L.told_step s
    rwa [h] at htold
  last s r t h := by
    have htold := L.told_step s
    rwa [h] at htold

/-- **The trace of a run of the loop** that has ended. -/
theorem runTrace_of_run {s₀ : σ} {n : Nat} (htrace : L.trace s₀ = some [])
    (hcycle : (L.snapshot s₀).cycle = 0) (hrun : Stepping.run L.step n s₀ = some (r, t)) :
    ∃ events, L.trace t = some events ∧ RunTrace events (L.verdict r) fun code message ↦
      ∃ s, Stepping.Reaches L.step s₀ s ∧ L.Traps s code message := by
  obtain ⟨events, hevents, htold⟩ := L.recorder.runTrace_of_run htrace hcycle hrun
  exact ⟨events, hevents, htold.congr fun code message ↦
    exists_congr fun s ↦ and_congr_right' L.closing_eq_trap⟩

end Loop

end MiniLang
