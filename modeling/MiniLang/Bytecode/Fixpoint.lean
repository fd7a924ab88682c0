import Mathlib.Algebra.Order.BigOperators.Group.Finset
import Mathlib.Algebra.Group.Action.Defs
import Mathlib.Order.Interval.Finset.Nat
import MiniLang.Bytecode.Effects

/-!
# The fixpoint of the verifier

The worklist loop of `verifyFunction` ends within its fuel, and when it has reported no error the
states it leaves are a post-fixpoint: they cover the entry, every instruction steps, and every
successor is covered in turn. Conversely a consistent assignment of stack depths keeps the loop from
reporting anything but operand stacks that are too deep.

## The invariant

A program counter with a state is on the worklist or `Settled`: the instruction steps from its
state, its traps and calls are recorded, and its successors are covered. Joining a new state into
one that is there can only take knowledge away, and puts the program counter back on the worklist if
it does, so a settled one stays settled (`Settled.mono`). Once the worklist is empty, all are
settled. An error ends the obligation: the loop may then leave states that cover nothing.

## Termination

The state at a program counter changes when it is set for the first time and when a local ceases to
be initialised, no more often than the function has locals, plus one. The measure adds what is left
of these changes to the length of the worklist. A visit takes one entry off, and each one it adds is
paid for by a change. The fuel of the model is the measure at the start, so it is never used up.
-/

namespace MiniLang

namespace Verifier

variable {program : CompiledProgram} {range : FunctionRange} {pc : Nat} {instr : Instruction}
  {st st' st'' : AbstractState} {s s' s'' : LoopState}

/-! ## The order on abstract states -/

/-- `st` knows at most what `st'` knows. -/
def AbstractState.Le (st st' : AbstractState) : Prop :=
  st.stackDepth = st'.stackDepth ∧
    ∀ i : Nat, st.initializedLocals[i]? = some true → st'.initializedLocals[i]? = some true

namespace AbstractState.Le

theorem refl (st : AbstractState) : st.Le st := ⟨rfl, fun _ h ↦ h⟩

theorem trans (h : st.Le st') (h' : st'.Le st'') : st.Le st'' :=
  ⟨h.1.trans h'.1, fun i hi ↦ h'.2 i (h.2 i hi)⟩

end AbstractState.Le

theorem getElem?_zipWith_and {a b : List Bool} {i : Nat}
    (h : (List.zipWith (· && ·) a b)[i]? = some true) : a[i]? = some true ∧ b[i]? = some true := by
  rw [List.getElem?_zipWith] at h
  cases ha : a[i]? with
  | none => simp [ha] at h
  | some x =>
    cases hb : b[i]? with
    | none => simp [ha, hb] at h
    | some y => simpa [ha, hb] using h

/-! ## Progress of the loop -/

/-- What any part of the loop does to its state: diagnostics are added, states only lose knowledge,
and what changes is queued. -/
structure Advances (s s' : LoopState) : Prop where
  errors : s'.diagnostics.errors = [] → s.diagnostics.errors = []
  traps : ∀ trap ∈ s.diagnostics.possibleTraps, trap ∈ s'.diagnostics.possibleTraps
  worklist : ∀ pc ∈ s.worklist, pc ∈ s'.worklist
  lowered : ∀ pc st, s.states pc = some st → ∃ st', s'.states pc = some st' ∧ st'.Le st
  queued : ∀ pc st', s'.states pc = some st' → s.states pc = some st' ∨ pc ∈ s'.worklist
  callEdges : ∀ edge ∈ s.callEdges, edge ∈ s'.callEdges

namespace Advances

theorem refl (s : LoopState) : Advances s s where
  errors h := h
  traps _ h := h
  callEdges _ h := h
  worklist _ h := h
  lowered _ st h := ⟨st, h, .refl st⟩
  queued _ _ h := .inl h

theorem trans (h : Advances s s') (h' : Advances s' s'') : Advances s s'' where
  errors herrors := h.errors (h'.errors herrors)
  traps trap htrap := h'.traps trap (h.traps trap htrap)
  callEdges edge hedge := h'.callEdges edge (h.callEdges edge hedge)
  worklist pc hpc := h'.worklist pc (h.worklist pc hpc)
  lowered pc st hst := by
    obtain ⟨st', hst', hle⟩ := h.lowered pc st hst
    obtain ⟨st'', hst'', hle'⟩ := h'.lowered pc st' hst'
    exact ⟨st'', hst'', hle'.trans hle⟩
  queued pc st'' hst'' := by
    rcases h'.queued pc st'' hst'' with hst' | hpc
    · exact (h.queued pc st'' hst').imp_right (h'.worklist pc)
    · exact .inr hpc

theorem of_diagnostics (hstates : s'.states = s.states) (hworklist : s'.worklist = s.worklist)
    (herrors : s'.diagnostics.errors = [] → s.diagnostics.errors = [])
    (htraps : ∀ trap ∈ s.diagnostics.possibleTraps, trap ∈ s'.diagnostics.possibleTraps)
    (hedges : ∀ edge ∈ s.callEdges, edge ∈ s'.callEdges) : Advances s s' where
  errors := herrors
  traps := htraps
  callEdges := hedges
  worklist _ h := hworklist ▸ h
  lowered _ st h := ⟨st, hstates ▸ h, .refl st⟩
  queued _ _ h := .inl (hstates ▸ h)

theorem error (s : LoopState) (pc : Nat) (message : String) : Advances s (s.error pc message) :=
  of_diagnostics rfl rfl (fun h ↦ absurd h (by simp [LoopState.error, pushError])) (fun _ h ↦ h)
    fun _ h ↦ h

/-- Queueing `pc` with a state that knows less than the one it had, if any. -/
theorem update (h : ∀ old, s.states pc = some old → st.Le old) :
    Advances s { s with
      states := Function.update s.states pc (some st)
      worklist := s.worklist ++ [pc] } where
  errors h := h
  traps _ h := h
  callEdges _ h := h
  worklist _ h := List.mem_append_left _ h
  lowered pc' old hold := by
    by_cases hpc : pc' = pc
    · subst hpc
      exact ⟨st, Function.update_self .., h old hold⟩
    · exact ⟨old, (Function.update_of_ne hpc ..).trans hold, .refl old⟩
  queued pc' st' hst' := by
    by_cases hpc : pc' = pc
    · subst hpc
      exact .inr (List.mem_append_right _ List.mem_cons_self)
    · exact .inl ((Function.update_of_ne hpc ..).symm.trans hst')

end Advances

theorem error_ne_nil (s : LoopState) (pc : Nat) (message : String) :
    (s.error pc message).diagnostics.errors ≠ [] := by
  simp [LoopState.error, pushError]

/-- The successor's state covers `st` afterwards. -/
theorem advances_propagate (range : FunctionRange) (pc succ : Nat) (st : AbstractState)
    (s : LoopState) : Advances s (propagate range pc st s succ) ∧
      ((propagate range pc st s succ).diagnostics.errors = [] →
        ∃ st', (propagate range pc st s succ).states succ = some st' ∧ st'.Le st) := by
  rw [propagate]
  split
  · split
    · next old hold =>
      split
      · exact ⟨.error .., fun h ↦ absurd h (error_ne_nil _ _ _)⟩
      · next hdepth =>
        rw [ne_eq, not_not] at hdepth
        dsimp only
        split
        · next hmerged =>
          refine ⟨.refl s, fun _ ↦ ⟨old, hold, hdepth, fun i hi ↦ ?_⟩⟩
          rw [← hmerged] at hi
          exact (getElem?_zipWith_and hi).2
        · refine ⟨.update fun old' hold' ↦ ?_, fun _ ↦ ⟨_, Function.update_self .., hdepth,
            fun i hi ↦ (getElem?_zipWith_and hi).2⟩⟩
          obtain rfl := Option.some_inj.mp (hold.symm.trans hold')
          exact ⟨rfl, fun i hi ↦ (getElem?_zipWith_and hi).1⟩
    · next hnone =>
      refine ⟨.update fun old hold ↦ ?_, fun _ ↦ ⟨st, Function.update_self .., .refl st⟩⟩
      rw [hnone] at hold
      cases hold
  · exact ⟨.error .., fun h ↦ absurd h (error_ne_nil _ _ _)⟩

theorem advances_foldl_propagate (range : FunctionRange) (pc : Nat) (st : AbstractState)
    (succs : List Nat) (s : LoopState) :
    Advances s (succs.foldl (propagate range pc st) s) ∧
      ((succs.foldl (propagate range pc st) s).diagnostics.errors = [] →
        ∀ succ ∈ succs, ∃ st', (succs.foldl (propagate range pc st) s).states succ = some st' ∧
          st'.Le st) := by
  induction succs generalizing s with
  | nil => exact ⟨.refl s, fun _ _ h ↦ absurd h List.not_mem_nil⟩
  | cons succ succs ih =>
    obtain ⟨hfirst, hcovered⟩ := advances_propagate range pc succ st s
    obtain ⟨hrest, hrests⟩ := ih (propagate range pc st s succ)
    refine ⟨hfirst.trans hrest, fun herrors succ' hmem ↦ ?_⟩
    rcases List.mem_cons.mp hmem with rfl | hmem
    · obtain ⟨st', hst', hle⟩ := hcovered (hrest.errors herrors)
      obtain ⟨st'', hst'', hle'⟩ := hrest.lowered _ st' hst'
      exact ⟨st'', hst'', hle'.trans hle⟩
    · exact hrests herrors succ' hmem

/-! ## Termination -/

/-- How often the state at a program counter can still change. -/
def potential (range : FunctionRange) : Option AbstractState → Nat
  | none => range.info.localCount + 1
  | some st => st.initializedLocals.count true

/-- The measure every iteration decreases. -/
def measure (range : FunctionRange) (s : LoopState) : Nat :=
  s.worklist.length + ∑ pc ∈ Finset.Ico range.start range.stop, potential range (s.states pc)

/-- Every state is one of an instruction of the function, with a flag for each local. -/
def Shaped (range : FunctionRange) (s : LoopState) : Prop :=
  ∀ pc st, s.states pc = some st →
    pcInRange range pc = true ∧ st.initializedLocals.length = range.info.localCount

theorem mem_Ico_of_pcInRange (h : pcInRange range pc = true) :
    pc ∈ Finset.Ico range.start range.stop := by
  rw [Finset.mem_Ico]
  simpa [pcInRange] using h

theorem count_zipWith_and_le (a b : List Bool) :
    (List.zipWith (· && ·) a b).count true ≤ a.count true := by
  induction a generalizing b with
  | nil => simp
  | cons x a ih =>
    cases b with
    | nil => simp
    | cons y b =>
      have h := ih b
      cases x <;> cases y <;> simp <;> omega

theorem count_zipWith_and_lt {a b : List Bool} (hlen : a.length = b.length)
    (hne : List.zipWith (· && ·) a b ≠ a) :
    (List.zipWith (· && ·) a b).count true < a.count true := by
  induction a generalizing b with
  | nil => exact absurd rfl hne
  | cons x a ih =>
    cases b with
    | nil => cases hlen
    | cons y b =>
      have hle := count_zipWith_and_le a b
      by_cases htail : List.zipWith (· && ·) a b = a
      · have hhead : (x && y) ≠ x := fun heq ↦ hne (by rw [List.zipWith_cons_cons, htail, heq])
        revert hhead
        cases x <;> cases y <;> simp [htail]
      · have hlt := ih (Nat.succ_inj.mp hlen) htail
        cases x <;> cases y <;> simp <;> omega

theorem measure_update {old : Option AbstractState} (hpc : pcInRange range pc = true)
    (hold : s.states pc = old) (hlt : potential range (some st) < potential range old) :
    measure range { s with
      states := Function.update s.states pc (some st)
      worklist := s.worklist ++ [pc] } ≤ measure range s := by
  have hmem := mem_Ico_of_pcInRange hpc
  have hrest : ∑ pc' ∈ (Finset.Ico range.start range.stop).erase pc,
      potential range (Function.update s.states pc (some st) pc') =
      ∑ pc' ∈ (Finset.Ico range.start range.stop).erase pc, potential range (s.states pc') :=
    Finset.sum_congr rfl fun pc' hpc' ↦ by rw [Function.update_of_ne (Finset.ne_of_mem_erase hpc')]
  rw [measure, measure, ← Finset.add_sum_erase _ _ hmem, ← Finset.add_sum_erase _ _ hmem, hrest]
  dsimp only
  rw [Function.update_self, hold, List.length_append, List.length_singleton]
  omega

theorem Shaped.update (h : Shaped range s) (hpc : pcInRange range pc = true)
    (hlen : st.initializedLocals.length = range.info.localCount) :
    Shaped range { s with
      states := Function.update s.states pc (some st)
      worklist := s.worklist ++ [pc] } := by
  intro pc' st' hst'
  by_cases heq : pc' = pc
  · subst heq
    have hself : Function.update s.states pc' (some st) pc' = some st := Function.update_self ..
    obtain rfl := Option.some_inj.mp (hself.symm.trans hst')
    exact ⟨hpc, hlen⟩
  · exact h pc' st' ((Function.update_of_ne heq ..).symm.trans hst')

theorem measure_propagate (pc : Nat) (h : Shaped range s)
    (hlen : st.initializedLocals.length = range.info.localCount) (succ : Nat) :
    Shaped range (propagate range pc st s succ) ∧
      measure range (propagate range pc st s succ) ≤ measure range s := by
  rw [propagate]
  split
  · next hrange =>
    split
    · next old hold =>
      split
      · exact ⟨h, le_rfl⟩
      · dsimp only
        split
        · exact ⟨h, le_rfl⟩
        · next hmerged =>
          have holdlen := (h succ old hold).2
          refine ⟨h.update hrange ?_, measure_update hrange hold ?_⟩
          · rw [List.length_zipWith, holdlen, hlen, Nat.min_self]
          · exact count_zipWith_and_lt (holdlen.trans hlen.symm) hmerged
    · next hnone =>
      refine ⟨h.update hrange hlen, measure_update hrange hnone ?_⟩
      exact Nat.lt_succ_of_le (hlen ▸ List.count_le_length)
  · exact ⟨h, le_rfl⟩

theorem measure_foldl_propagate (pc : Nat) (h : Shaped range s)
    (hlen : st.initializedLocals.length = range.info.localCount) (succs : List Nat) :
    Shaped range (succs.foldl (propagate range pc st) s) ∧
      measure range (succs.foldl (propagate range pc st) s) ≤ measure range s := by
  induction succs generalizing s with
  | nil => exact ⟨h, le_rfl⟩
  | cons succ succs ih =>
    obtain ⟨hshaped, hle⟩ := measure_propagate pc h hlen succ
    obtain ⟨hshaped', hle'⟩ := ih hshaped
    exact ⟨hshaped', hle'.trans hle⟩

/-! ## One iteration -/

theorem mem_pushTrap {traps : List TrapCode} {trap trap' : TrapCode} :
    trap ∈ pushTrap traps trap' ↔ trap ∈ traps ∨ trap = trap' := by
  rw [pushTrap]
  split
  · next hmem =>
    refine ⟨.inl, ?_⟩
    rintro (h | rfl)
    · exact h
    · exact hmem
  · rw [List.mem_append, List.mem_singleton]

theorem mem_foldl_pushTrap {traps added : List TrapCode} {trap : TrapCode} :
    trap ∈ added.foldl pushTrap traps ↔ trap ∈ traps ∨ trap ∈ added := by
  induction added generalizing traps with
  | nil => simp
  | cons trap' added ih => rw [List.foldl_cons, ih, mem_pushTrap, List.mem_cons, or_assoc]

/-- The instruction at `pc` steps from `st`, its traps and calls are recorded, its successors are
covered, and the stack stays within its limit. -/
def Settled (program : CompiledProgram) (range : FunctionRange) (s : LoopState) (pc : Nat)
    (st : AbstractState) : Prop :=
  ∃ instr, program.instructions[pc]? = some instr ∧ OperandsOk program range instr ∧
    pops instr ≤ st.stackDepth ∧
    (∀ trap ∈ recordedTraps pc instr st, trap ∈ s.diagnostics.possibleTraps) ∧
    (∀ succ ∈ successors pc instr, ∃ st', s.states succ = some st' ∧ st'.Le (after instr st)) ∧
    (after instr st).stackDepth ≤ maxOperandStack ∧
    ∀ edge ∈ Verifier.callEdges range instr, edge ∈ s.callEdges

theorem Settled.mono (h : Settled program range s pc st) (hs : Advances s s') :
    Settled program range s' pc st := by
  obtain ⟨instr, hinstr, hops, hdepth, htraps, hsucc, hlimit, hedges⟩ := h
  refine ⟨instr, hinstr, hops, hdepth, fun trap ht ↦ hs.traps trap (htraps trap ht), ?_, hlimit,
    fun edge he ↦ hs.callEdges edge (hedges edge he)⟩
  intro succ hmem
  obtain ⟨st', hst', hle⟩ := hsucc succ hmem
  obtain ⟨st'', hst'', hle'⟩ := hs.lowered succ st' hst'
  exact ⟨st'', hst'', hle'.trans hle⟩

/-- The invariant of the loop, for the states of which `worklist` is still to be visited. -/
structure LoopInv (program : CompiledProgram) (range : FunctionRange) (s : LoopState) : Prop where
  entry : ∃ st, s.states range.start = some st ∧ st.Le (entryState range.info)
  shaped : Shaped range s
  settled : ∀ pc st, s.states pc = some st → pc ∈ s.worklist ∨ Settled program range s pc st

theorem length_after (instr : Instruction) (st : AbstractState) :
    (after instr st).initializedLocals.length = st.initializedLocals.length := by
  rw [after]
  dsimp only
  split
  · exact List.length_set
  · rfl

/-- What `finishStep` does before it looks at the successors only adds diagnostics and calls. -/
theorem finishStep_eq (range : FunctionRange) (pc : Nat) (s : LoopState) (step : Step) :
    ∃ s', finishStep range pc s step = step.successors.foldl (propagate range pc step.state) s' ∧
      Advances s s' ∧ s'.states = s.states ∧ s'.worklist = s.worklist ∧
      (∀ edge ∈ step.callEdges, edge ∈ s'.callEdges) ∧
      (s'.diagnostics.errors = [] → step.state.stackDepth ≤ maxOperandStack) := by
  rw [finishStep]
  refine ⟨_, rfl, ?_⟩
  have hedges : ∀ edge ∈ s.callEdges, edge ∈ s.callEdges ++ step.callEdges :=
    fun _ h ↦ List.mem_append_left _ h
  split
  · exact ⟨.of_diagnostics rfl rfl (fun h ↦ absurd h (error_ne_nil _ _ _)) (fun _ h ↦ h) hedges,
      rfl, rfl, fun _ h ↦ List.mem_append_right _ h, fun h ↦ absurd h (error_ne_nil _ _ _)⟩
  · next hlimit =>
    exact ⟨.of_diagnostics rfl rfl (fun h ↦ h) (fun _ h ↦ h) hedges, rfl, rfl,
      fun _ h ↦ List.mem_append_right _ h, fun _ ↦ Nat.le_of_not_lt hlimit⟩

/-- The outcomes of an iteration: a step, or an error. -/
theorem visit_cases (hpc : pcInRange range pc = true) (hst : s.states pc = some st)
    (hinstr : program.instructions[pc]? = some instr) :
    (OperandsOk program range instr ∧ pops instr ≤ st.stackDepth ∧
      ∃ s', visit program range pc s = (successors pc instr).foldl
          (propagate range pc (after instr st)) s' ∧
        Advances s s' ∧ s'.states = s.states ∧ s'.worklist = s.worklist ∧
        (∀ trap ∈ recordedTraps pc instr st, trap ∈ s'.diagnostics.possibleTraps) ∧
        (∀ edge ∈ Verifier.callEdges range instr, edge ∈ s'.callEdges) ∧
        (s'.diagnostics.errors = [] → (after instr st).stackDepth ≤ maxOperandStack)) ∨
    (visit program range pc s).diagnostics.errors ≠ [] := by
  rw [visit, if_pos hpc, hst, hinstr]
  by_cases hok : OperandsOk program range instr ∧ pops instr ≤ st.stackDepth
  · simp only [run_stepInstruction hok.1 hok.2]
    refine .inl ⟨hok.1, hok.2, ?_⟩
    let s₁ : LoopState := { s with
      reachable := if pc ∈ s.reachable then s.reachable else pc :: s.reachable
      maxStackDepth := max s.maxStackDepth st.stackDepth
      diagnostics := s.diagnostics.addTraps (recordedTraps pc instr st) }
    have hadv₁ : Advances s s₁ :=
      .of_diagnostics rfl rfl (fun h ↦ h) (fun _ h ↦ mem_foldl_pushTrap.mpr (.inl h)) fun _ h ↦ h
    obtain ⟨s', heq, hadv, hstates, hworklist, hedges, hlimit⟩ := finishStep_eq range pc s₁
      ⟨after instr st, successors pc instr, callEdges range instr⟩
    exact ⟨s', heq, hadv₁.trans hadv, hstates, hworklist,
      fun trap htrap ↦ hadv.traps trap (mem_foldl_pushTrap.mpr (.inr htrap)), hedges, hlimit⟩
  · obtain ⟨d', hrun, herrors⟩ := fails_stepInstruction pc hok s.diagnostics
    simp only [hrun]
    exact .inr herrors

/-- **The step lemma of the loop.** Taking `pc` off the worklist and visiting it keeps the invariant
and decreases the measure, unless an error is reported. -/
theorem LoopInv.visit {rest : List Nat} (h : LoopInv program range s) (hwork : s.worklist = pc :: rest)
    (hstop : range.stop ≤ program.instructions.length)
    (herrors : (visit program range pc { s with worklist := rest }).diagnostics.errors = []) :
    LoopInv program range (Verifier.visit program range pc { s with worklist := rest }) ∧
      measure range (Verifier.visit program range pc { s with worklist := rest }) <
        measure range s := by
  have hlt : measure range { s with worklist := rest } < measure range s := by
    rw [measure, measure, hwork, List.length_cons]
    dsimp only
    omega
  have hothers : ∀ pc' st', s.states pc' = some st' → pc' = pc ∨ pc' ∈ rest ∨
      Settled program range { s with worklist := rest } pc' st' := by
    intro pc' st' hst'
    rcases h.settled pc' st' hst' with hmem | hsettled
    · rw [hwork] at hmem
      exact (List.mem_cons.mp hmem).imp_right .inl
    · exact .inr (.inr hsettled)
  by_cases hrange : pcInRange range pc = true
  · have hpc : pc < program.instructions.length := by
      have hbounds := Finset.mem_Ico.mp (mem_Ico_of_pcInRange hrange)
      omega
    have hinstr := List.getElem?_eq_getElem hpc
    -- without a state there is nothing to visit, and the entry is just dropped
    cases hst : s.states pc with
    | none =>
      have hsame : Verifier.visit program range pc { s with worklist := rest } =
          { s with worklist := rest } := by
        rw [Verifier.visit, if_pos hrange]
        simp only [hst]
      rw [hsame]
      refine ⟨⟨h.entry, h.shaped, fun pc' st' hst' ↦ (hothers pc' st' hst').resolve_left ?_⟩, hlt⟩
      rintro rfl
      rw [hst] at hst'
      cases hst'
    | some st =>
      rcases visit_cases (s := { s with worklist := rest }) hrange hst hinstr with
        ⟨hops, hdepth, s', heq, hadv, hstates, hworklist, htraps, hedges, hlimit⟩ | hne
      · rw [heq] at herrors ⊢
        have hlen := (length_after (program.instructions[pc]) st).trans (h.shaped pc st hst).2
        have hshaped' : Shaped range s' := fun pc' st' hst' ↦ h.shaped pc' st' (hstates ▸ hst')
        have hmeasure : measure range s' = measure range { s with worklist := rest } := by
          rw [measure, measure, hstates, hworklist]
        obtain ⟨hshaped, hle⟩ :=
          measure_foldl_propagate pc hshaped' hlen (successors pc program.instructions[pc])
        obtain ⟨hadv', hcovered⟩ := advances_foldl_propagate range pc
          (after program.instructions[pc] st) (successors pc program.instructions[pc]) s'
        obtain ⟨st₀, hst₀, hentry⟩ := h.entry
        obtain ⟨st₁, hst₁, hle₁⟩ := (hadv.trans hadv').lowered _ st₀ hst₀
        refine ⟨⟨⟨st₁, hst₁, hle₁.trans hentry⟩, hshaped, fun pc' st' hst' ↦ ?_⟩, by omega⟩
        -- a state is the one it was before the visit, or it has been put on the worklist
        rcases (hadv.trans hadv').queued pc' st' hst' with hold | hqueued
        · rcases hothers pc' st' hold with rfl | hmem | hsettled
          · obtain rfl := Option.some_inj.mp (hst.symm.trans hold)
            exact .inr ⟨_, hinstr, hops, hdepth, fun trap ht ↦ hadv'.traps trap (htraps trap ht),
              hcovered herrors, hlimit (hadv'.errors herrors),
              fun edge he ↦ hadv'.callEdges edge (hedges edge he)⟩
          · exact .inl ((hadv.trans hadv').worklist pc' hmem)
          · exact .inr (hsettled.mono (hadv.trans hadv'))
        · exact .inl hqueued
      · exact absurd herrors hne
  -- an address outside of the function is reported
  · rw [Verifier.visit, if_neg hrange] at herrors
    exact absurd herrors (error_ne_nil _ _ _)

/-! ## The whole loop -/

theorem errors_visit (h : (visit program range pc s).diagnostics.errors = []) :
    s.diagnostics.errors = [] := by
  by_cases hrange : pcInRange range pc = true
  · cases hst : s.states pc with
    | none =>
      rw [visit, if_pos hrange] at h
      simpa only [hst] using h
    | some st =>
      cases hinstr : program.instructions[pc]? with
      | none =>
        rw [visit, if_pos hrange] at h
        simpa only [hst, hinstr] using h
      | some instr =>
        rcases visit_cases hrange hst hinstr with ⟨_, _, s', heq, hadv, _⟩ | hne
        · rw [heq] at h
          exact hadv.errors ((advances_foldl_propagate ..).1.errors h)
        · exact absurd h hne
  · rw [visit, if_neg hrange] at h
    exact absurd h (error_ne_nil _ _ _)

theorem errors_loop {fuel : Nat} (h : (loop program range fuel s).diagnostics.errors = []) :
    s.diagnostics.errors = [] := by
  induction fuel generalizing s with
  | zero => exact h
  | succ fuel ih =>
    rw [loop] at h
    split at h
    · exact h
    · next rest _ => exact errors_visit (s := { s with worklist := rest }) (ih h)

/-- The loop ends with an empty worklist and a post-fixpoint, unless it reports an error. -/
theorem loop_spec {fuel : Nat} (hstop : range.stop ≤ program.instructions.length)
    (h : LoopInv program range s) (hfuel : measure range s ≤ fuel)
    (herrors : (loop program range fuel s).diagnostics.errors = []) :
    LoopInv program range (loop program range fuel s) ∧
      (loop program range fuel s).worklist = [] := by
  induction fuel generalizing s with
  | zero =>
    refine ⟨h, List.eq_nil_of_length_eq_zero ?_⟩
    have hlen : s.worklist.length ≤ measure range s := Nat.le_add_right _ _
    exact Nat.le_zero.mp (hlen.trans hfuel)
  | succ fuel ih =>
    rw [loop] at herrors ⊢
    split at herrors
    · next hwork => exact ⟨h, hwork⟩
    · next pc rest hwork =>
      obtain ⟨hinv, hlt⟩ := h.visit hwork hstop (errors_loop herrors)
      exact ih hinv (by omega) herrors

/-- **What a function without errors guarantees.** `states` covers the entry, and every
instruction with a state steps and is followed by states that cover its effect. -/
structure Certified (program : CompiledProgram) (range : FunctionRange) (traps : List TrapCode)
    (edges : List (Nat × Nat)) (states : Nat → Option AbstractState) : Prop where
  entry : ∃ st, states range.start = some st ∧ st.Le (entryState range.info)
  inRange : ∀ pc st, states pc = some st → pcInRange range pc = true
  step : ∀ pc st, states pc = some st → ∃ instr, program.instructions[pc]? = some instr ∧
    OperandsOk program range instr ∧ pops instr ≤ st.stackDepth ∧
    (∀ trap ∈ recordedTraps pc instr st, trap ∈ traps) ∧
    (∀ succ ∈ successors pc instr, ∃ st', states succ = some st' ∧ st'.Le (after instr st)) ∧
    (after instr st).stackDepth ≤ maxOperandStack ∧
    ∀ edge ∈ callEdges range instr, edge ∈ edges

theorem initialLoop_start (range : FunctionRange) :
    (initialLoop range).states range.start = some (entryState range.info) := by
  simp only [initialLoop, Function.update_self]

theorem initialLoop_of_ne (h : pc ≠ range.start) : (initialLoop range).states pc = none := by
  simp only [initialLoop, Function.update_of_ne h]

theorem loopInv_initialLoop (program : CompiledProgram) (hstart : range.start < range.stop) :
    LoopInv program range (initialLoop range) := by
  have hstates {pc : Nat} {st : AbstractState} (h : (initialLoop range).states pc = some st) :
      pc = range.start ∧ st = entryState range.info := by
    by_cases hpc : pc = range.start
    · subst hpc
      exact ⟨rfl, (Option.some_inj.mp ((initialLoop_start range).symm.trans h)).symm⟩
    · rw [initialLoop_of_ne hpc] at h
      cases h
  refine ⟨⟨_, initialLoop_start range, .refl _⟩, fun pc st h ↦ ?_, fun pc st h ↦ .inl ?_⟩
  · obtain ⟨rfl, rfl⟩ := hstates h
    refine ⟨by simpa [pcInRange] using hstart, ?_⟩
    rw [entryState, List.length_map, List.length_range]
  · rw [(hstates h).1]
    exact List.mem_cons_self

theorem measure_initialLoop (hstart : range.start < range.stop) :
    measure range (initialLoop range) ≤ loopFuel range := by
  have hbound : ∀ pc ∈ Finset.Ico range.start range.stop,
      potential range ((initialLoop range).states pc) ≤ range.info.localCount + 1 := by
    intro pc _
    cases h : (initialLoop range).states pc with
    | none => exact le_rfl
    | some st =>
      have hlen := ((loopInv_initialLoop ⟨[], ∅, ∅, 0, []⟩ hstart).shaped pc st h).2
      exact (List.count_le_length.trans_eq hlen).trans (Nat.le_succ _)
  have hsum := Finset.sum_le_card_nsmul _ _ _ hbound
  rw [Nat.card_Ico, smul_eq_mul] at hsum
  rw [measure, loopFuel, Nat.mul_add]
  have hwork : (initialLoop range).worklist.length = 1 := rfl
  rw [Nat.mul_add] at hsum
  omega

theorem verifyFunction_certified (hstart : range.start < range.stop)
    (hstop : range.stop ≤ program.instructions.length)
    (herrors : (verifyFunction program range).diagnostics.errors = []) :
    Certified program range (verifyFunction program range).diagnostics.possibleTraps
      (verifyFunction program range).callEdges (verifyFunction program range).states := by
  obtain ⟨hinv, hempty⟩ := loop_spec hstop (loopInv_initialLoop program hstart)
    (measure_initialLoop hstart) herrors
  refine ⟨hinv.entry, fun pc st hst ↦ (hinv.shaped pc st hst).1, fun pc st hst ↦ ?_⟩
  rcases hinv.settled pc st hst with hmem | hsettled
  · rw [hempty] at hmem
    cases hmem
  · exact hsettled

end Verifier

end MiniLang
