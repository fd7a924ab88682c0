import Mathlib.Data.List.Chain
import MiniLang.Bytecode.Trace
import MiniLang.Lib.Stepping

/-!
# Recorded traces

What a machine records that appends one event for each instruction it executes. Each event begins
where the one before has ended, the events are numbered from 1, and only the last one may tell that
the run has ended.
-/

namespace MiniLang

/-- What an event tells of the state before or after it. -/
structure Snapshot where
  cycle : Nat
  pc : Nat
  stack : List Int
  depth : Nat

/-- The outcomes after which no instruction is executed. -/
def TraceOutcome.Ends : TraceOutcome → Prop
  | .continue => False
  | .jump => False
  | .exit => True
  | .trap _ _ => True

/-- The event is that of an instruction executed in the state `s`. -/
structure TraceEvent.Starts (event : TraceEvent) (s : Snapshot) : Prop where
  cycle : event.cycle = s.cycle + 1
  pc : event.pc = s.pc
  stack : event.stackBefore = s.stack
  depth : event.frameDepthBefore = s.depth

/-- The state after the event. -/
def TraceEvent.after (event : TraceEvent) : Snapshot :=
  ⟨event.cycle, event.nextPc, event.stackAfter, event.frameDepthAfter⟩

/-- The events are numbered from 1, each one starts where the one before has ended, and none but
the last ends the run. -/
structure TraceWellFormed (events : List TraceEvent) : Prop where
  cycles : ∀ k event, events[k]? = some event → event.cycle = k + 1
  chained : ∀ k event event', events[k]? = some event → events[k + 1]? = some event' →
    event'.Starts event.after
  last : ∀ k event, events[k]? = some event → event.outcome.Ends → k + 1 = events.length

/-- What has been recorded when a state is reached. -/
structure Recorded (events : List TraceEvent) (s : Snapshot) : Prop where
  wellFormed : TraceWellFormed events
  running : ∀ event ∈ events, ¬event.outcome.Ends
  cycle : s.cycle = events.length
  after : ∀ event ∈ events.getLast?, event.after = s

variable {events : List TraceEvent} {event : TraceEvent} {s : Snapshot}

theorem Recorded.nil (h : s.cycle = 0) : Recorded [] s where
  wellFormed := {
    cycles := fun _ _ h ↦ nomatch h
    chained := fun _ _ _ h ↦ nomatch h
    last := fun _ _ h ↦ nomatch h }
  running _ h := absurd h List.not_mem_nil
  cycle := h
  after _ h := nomatch h

/-- One more event. -/
theorem Recorded.wellFormed_append (h : Recorded events s) (hstarts : event.Starts s) :
    TraceWellFormed (events ++ [event]) := by
  have hcycle := h.cycle
  constructor
  · intro k event' hk
    rcases Nat.lt_trichotomy k events.length with hlt | rfl | hgt
    · rw [List.getElem?_append_left hlt] at hk
      exact h.wellFormed.cycles k event' hk
    · rw [List.getElem?_concat_length] at hk
      obtain rfl := Option.some_inj.mp hk
      rw [hstarts.cycle, hcycle]
    · rw [List.getElem?_eq_none (by rw [List.length_append, List.length_singleton]; omega)] at hk
      cases hk
  · intro k event₁ event₂ hk hk'
    have hlt := (List.getElem?_eq_some_iff.mp hk').1
    rw [List.length_append, List.length_singleton] at hlt
    rw [List.getElem?_append_left (by omega)] at hk
    rcases Nat.lt_or_ge (k + 1) events.length with hlt' | hge
    · rw [List.getElem?_append_left hlt'] at hk'
      exact h.wellFormed.chained k event₁ event₂ hk hk'
    · obtain hlast : k + 1 = events.length := by omega
      rw [hlast, List.getElem?_concat_length] at hk'
      obtain rfl := Option.some_inj.mp hk'
      have hafter : event₁.after = s := by
        refine h.after event₁ ?_
        rw [List.getLast?_eq_getElem?, ← hlast]
        exact hk
      exact hafter ▸ hstarts
  · intro k event' hk hends
    rw [List.length_append, List.length_singleton]
    rcases Nat.lt_trichotomy k events.length with hlt | rfl | hgt
    · rw [List.getElem?_append_left hlt] at hk
      exact absurd hends (h.running event' (List.mem_of_getElem? hk))
    · rfl
    · rw [List.getElem?_eq_none (by rw [List.length_append, List.length_singleton]; omega)] at hk
      cases hk

theorem Recorded.append (h : Recorded events s) (hstarts : event.Starts s)
    (hrunning : ¬event.outcome.Ends) : Recorded (events ++ [event]) event.after where
  wellFormed := h.wellFormed_append hstarts
  running event' hmem := by
    rcases List.mem_append.mp hmem with hmem | hmem
    · exact h.running event' hmem
    · rwa [List.mem_singleton.mp hmem]
  cycle := by
    rw [List.length_append, List.length_singleton, ← h.cycle]
    exact hstarts.cycle
  after event' hmem := by
    rw [List.getLast?_concat] at hmem
    rw [Option.some_inj.mp hmem]

/-- What the trace of a run tells: the run has succeeded exactly if some event says so, and the
trap events are those of the instructions that trap, which is how the run ends. -/
structure RunTrace (events : List TraceEvent) (verdict : Option TraceOutcome)
    (traps : TrapCode → String → Prop) : Prop where
  wellFormed : TraceWellFormed events
  exit : (∃ event ∈ events, event.outcome = .exit) ↔ verdict = some .exit
  trap : ∀ code message,
    (∃ event ∈ events, event.outcome = .trap code message) ↔ traps code message
  told : ∀ code message, traps code message → verdict = some (.trap code message)

theorem RunTrace.congr {verdict : Option TraceOutcome} {traps traps' : TrapCode → String → Prop}
    (h : RunTrace events verdict traps)
    (htraps : ∀ code message, traps code message ↔ traps' code message) :
    RunTrace events verdict traps' where
  wellFormed := h.wellFormed
  exit := h.exit
  trap code message := (h.trap code message).trans (htraps code message)
  told code message htrap := h.told code message ((htraps code message).mpr htrap)

/-- The trace of a run that has executed nothing. -/
theorem RunTrace.nil {verdict : Option TraceOutcome} {traps : TrapCode → String → Prop}
    (hfailed : verdict ≠ some .exit) (htraps : ∀ code message, ¬traps code message) :
    RunTrace [] verdict traps where
  wellFormed := (Recorded.nil (s := ⟨0, 0, [], 0⟩) rfl).wellFormed
  exit := iff_of_false nofun hfailed
  trap code message := iff_of_false nofun (htraps code message)
  told code message htrap := absurd htrap (htraps code message)

/-! ## Recording machines -/

/-- A machine that appends an event for each instruction it executes. -/
structure Recorder (σ ρ : Type) where
  step : σ → σ ⊕ (ρ × σ)
  trace : σ → Option (List TraceEvent)
  snapshot : σ → Snapshot
  /-- How a run has ended, unless the program has crashed. -/
  verdict : ρ → Option TraceOutcome
  /-- How the instruction executed in a state ends the run, if it does. -/
  closing : σ → Option TraceOutcome
  next : ∀ s t, step s = .inl t → closing s = none ∧ ∃ event : TraceEvent,
    event.Starts (snapshot s) ∧ event.after = snapshot t ∧ ¬event.outcome.Ends ∧
      trace t = (trace s).map (· ++ [event])
  last : ∀ s r t, step s = .inr (r, t) →
    closing s = none ∧ trace t = trace s ∧ verdict r ≠ some .exit ∨
      ∃ event : TraceEvent, event.Starts (snapshot s) ∧ event.outcome.Ends ∧
        closing s = some event.outcome ∧ verdict r = some event.outcome ∧
        trace t = (trace s).map (· ++ [event])

namespace Recorder

variable {σ ρ : Type} (R : Recorder σ ρ) {s₀ s t : σ} {r : ρ} {n : Nat}

/-- What has been recorded in a state of a run. -/
def Records (s : σ) : Prop := ∃ events, R.trace s = some events ∧ Recorded events (R.snapshot s)

theorem records_step (h : R.Records s) (hstep : R.step s = .inl t) : R.Records t := by
  obtain ⟨events, htrace, hrecorded⟩ := h
  obtain ⟨-, event, hstarts, hafter, hrunning, hnext⟩ := R.next s t hstep
  refine ⟨events ++ [event], by rw [hnext, htrace]; rfl, ?_⟩
  exact hafter ▸ hrecorded.append hstarts hrunning

/-- The invariant of a run. -/
theorem records_of_reaches (htrace : R.trace s₀ = some []) (hcycle : (R.snapshot s₀).cycle = 0)
    (h : Stepping.Reaches R.step s₀ s) : R.Records s :=
  h.invariant (fun _ _ ↦ R.records_step) ⟨[], htrace, .nil hcycle⟩

/-- Some instruction of the run ends it. -/
def Closes (s₀ : σ) (outcome : TraceOutcome) : Prop :=
  ∃ s, Stepping.Reaches R.step s₀ s ∧ R.closing s = some outcome

/-- It is the last one. -/
theorem closes_iff (hreach : Stepping.Reaches R.step s₀ s) (hstep : R.step s = .inr (r, t))
    (outcome : TraceOutcome) : R.Closes s₀ outcome ↔ R.closing s = some outcome := by
  refine ⟨?_, fun h ↦ ⟨s, hreach, h⟩⟩
  rintro ⟨s', hreach', hclosing⟩
  cases hend : R.step s' with
  | inl t' =>
    rw [(R.next s' t' hend).1] at hclosing
    cases hclosing
  | inr r' =>
    rw [hreach'.end_unique hreach hend hstep]
    exact hclosing

/-- **The trace of a run** that has ended. -/
theorem runTrace_of_run (htrace : R.trace s₀ = some []) (hcycle : (R.snapshot s₀).cycle = 0)
    (hrun : Stepping.run R.step n s₀ = some (r, t)) : ∃ events, R.trace t = some events ∧
      RunTrace events (R.verdict r) fun code message ↦ R.Closes s₀ (.trap code message) := by
  obtain ⟨s, hreach, hstep⟩ := Stepping.exists_reaches_of_run hrun
  obtain ⟨events, htrace, hrecorded⟩ := R.records_of_reaches htrace hcycle hreach
  have hcloses := R.closes_iff hreach hstep
  rcases R.last s r t hstep with ⟨hnone, hsame, hfailed⟩ |
    ⟨event, hstarts, hends, hclosing, hverdict, hlast⟩
  · have hsilent : ∀ outcome : TraceOutcome, outcome.Ends →
        ¬∃ event ∈ events, event.outcome = outcome := by
      rintro _ hends ⟨event, hmem, rfl⟩
      exact hrecorded.running event hmem hends
    have hopen : ∀ outcome, ¬R.Closes s₀ outcome := by
      intro outcome h
      rw [hcloses, hnone] at h
      cases h
    exact ⟨events, hsame.trans htrace, {
      wellFormed := hrecorded.wellFormed
      exit := iff_of_false (hsilent .exit trivial) hfailed
      trap := fun code message ↦ iff_of_false (hsilent _ trivial) (hopen _)
      told := fun code message h ↦ absurd h (hopen _) }⟩
  · have honly : ∀ outcome : TraceOutcome, outcome.Ends →
        ((∃ event' ∈ events ++ [event], event'.outcome = outcome) ↔ event.outcome = outcome) := by
      intro outcome houtcome
      constructor
      · rintro ⟨event', hmem, rfl⟩
        rcases List.mem_append.mp hmem with hmem | hmem
        · exact absurd houtcome (hrecorded.running event' hmem)
        · rw [List.mem_singleton.mp hmem]
      · intro heq
        exact ⟨event, List.mem_append_right _ (List.mem_singleton_self event), heq⟩
    refine ⟨events ++ [event], by rw [hlast, htrace]; rfl, hrecorded.wellFormed_append hstarts,
      ?_, fun code message ↦ ?_, fun code message h ↦ ?_⟩
    · rw [honly .exit trivial, hverdict, Option.some_inj]
    · rw [honly (.trap code message) trivial, hcloses, hclosing, Option.some_inj]
    · rw [hcloses, hclosing] at h
      exact hverdict.trans h

end Recorder

end MiniLang
