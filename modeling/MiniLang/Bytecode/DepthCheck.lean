import MiniLang.Bytecode.Verified

/-!
# What the verifier reports about code with consistent depths

Where every instruction of a function has one depth of the operand stack, with enough operands for
it and operands in range, the worklist finds these depths and reports nothing but depths that are
above the limit.
-/

namespace MiniLang

namespace Verifier

variable {program : CompiledProgram} {range : FunctionRange} {depth : Nat → Nat} {pc succ : Nat}
  {instr : Instruction} {s s' : LoopState} {st : AbstractState}

/-- The error that an operand stack gets too deep. -/
def IsDepthError (e : VerificationError) : Prop := ∃ n, e.message = stackDepthError n

/-- `depth` gives the depth at every instruction of the function. -/
structure DepthsOk (program : CompiledProgram) (range : FunctionRange) (depth : Nat → Nat) :
    Prop where
  start_lt : range.start < range.stop
  entry : depth range.start = 0
  operands : ∀ (pc : Nat) (instr : Instruction), pcInRange range pc = true →
    program.instructions[pc]? = some instr → OperandsOk program range instr
  pops_le : ∀ (pc : Nat) (instr : Instruction), pcInRange range pc = true →
    program.instructions[pc]? = some instr → pops instr ≤ depth pc
  next : ∀ (pc : Nat) (instr : Instruction), pcInRange range pc = true →
    program.instructions[pc]? = some instr → ∀ succ ∈ successors pc instr,
      pcInRange range succ = true ∧ depth succ = depth pc - pops instr + pushes instr

/-- The states found so far have the given depths, and only depths have been reported. -/
structure OnDepths (range : FunctionRange) (depth : Nat → Nat) (s : LoopState) : Prop where
  states : ∀ (pc : Nat) (st : AbstractState), s.states pc = some st → st.stackDepth = depth pc
  queued : ∀ pc ∈ s.worklist, pcInRange range pc = true
  errors : ∀ e ∈ s.diagnostics.errors, IsDepthError e

namespace OnDepths

/-- Queueing a state of the right depth. -/
theorem update (h : OnDepths range depth s) (hpc : pcInRange range pc = true)
    (hst : st.stackDepth = depth pc) : OnDepths range depth { s with
      states := Function.update s.states pc (some st)
      worklist := s.worklist ++ [pc] } where
  states pc' st' hst' := by
    have hst' : Function.update s.states pc (some st) pc' = some st' := hst'
    by_cases heq : pc' = pc
    · subst heq
      rw [Function.update_self] at hst'
      obtain rfl := Option.some_inj.mp hst'
      exact hst
    · rw [Function.update_of_ne heq] at hst'
      exact h.states pc' st' hst'
  queued pc' hmem := by
    rcases List.mem_append.mp hmem with hmem | hmem
    · exact h.queued pc' hmem
    · obtain rfl := List.mem_singleton.mp hmem
      exact hpc
  errors := h.errors

theorem propagate (h : OnDepths range depth s) (hsucc : pcInRange range succ = true)
    (hdepth : depth succ = st.stackDepth) :
    OnDepths range depth (propagate range pc st s succ) := by
  rw [Verifier.propagate, if_pos hsucc]
  cases hold : s.states succ with
  | none => exact h.update hsucc hdepth.symm
  | some existing =>
    have hexisting := h.states succ existing hold
    dsimp only
    rw [if_neg (not_not_intro (hexisting.trans hdepth))]
    split
    · exact h
    · exact h.update hsucc hexisting

theorem foldl_propagate {succs : List Nat} (h : OnDepths range depth s)
    (hsuccs : ∀ succ ∈ succs, pcInRange range succ = true ∧ depth succ = st.stackDepth) :
    OnDepths range depth (succs.foldl (Verifier.propagate range pc st) s) := by
  induction succs generalizing s with
  | nil => exact h
  | cons succ succs ih =>
    obtain ⟨⟨hrange, hdepth⟩, hsuccs⟩ := List.forall_mem_cons.mp hsuccs
    exact ih (h.propagate hrange hdepth) hsuccs

theorem finishStep {step : Step} (h : OnDepths range depth s)
    (hsuccs : ∀ succ ∈ step.successors,
      pcInRange range succ = true ∧ depth succ = step.state.stackDepth) :
    OnDepths range depth (finishStep range pc s step) := by
  rw [Verifier.finishStep]
  refine foldl_propagate ?_ hsuccs
  split
  · refine ⟨h.states, h.queued, fun e he ↦ ?_⟩
    rcases List.mem_append.mp he with he | he
    · exact h.errors e he
    · rw [List.mem_singleton.mp he]
      exact ⟨_, rfl⟩
  · exact ⟨h.states, h.queued, h.errors⟩

/-- One iteration. -/
theorem visit (hdepths : DepthsOk program range depth) (h : OnDepths range depth s)
    (hpc : pcInRange range pc = true) : OnDepths range depth (visit program range pc s) := by
  rw [Verifier.visit, if_pos hpc]
  cases hst : s.states pc with
  | none => exact h
  | some st =>
    cases hinstr : program.instructions[pc]? with
    | none => exact h
    | some instr =>
      have hdepth := h.states pc st hst
      have hpops := hdepths.pops_le pc instr hpc hinstr
      simp only [run_stepInstruction (hdepths.operands pc instr hpc hinstr)
        (hpops.trans_eq hdepth.symm)]
      refine finishStep ⟨h.states, h.queued, h.errors⟩ fun succ hsucc ↦ ?_
      obtain ⟨hrange, hnext⟩ := hdepths.next pc instr hpc hinstr succ hsucc
      refine ⟨hrange, hnext.trans ?_⟩
      rw [← hdepth]
      rfl

theorem loop (hdepths : DepthsOk program range depth) {fuel : Nat} (h : OnDepths range depth s) :
    OnDepths range depth (loop program range fuel s) := by
  induction fuel generalizing s with
  | zero => exact h
  | succ fuel ih =>
    rw [Verifier.loop]
    split
    · exact h
    · next pc rest hwork =>
      obtain ⟨hpc, hrest⟩ := List.forall_mem_cons.mp (hwork ▸ h.queued)
      apply ih
      exact visit hdepths ⟨h.states, hrest, h.errors⟩ hpc

end OnDepths

/-- **Only depths are reported** about a function with consistent depths. -/
theorem DepthsOk.errors (h : DepthsOk program range depth) :
    ∀ e ∈ (verifyFunction program range).diagnostics.errors, IsDepthError e := by
  have hinit : OnDepths range depth (initialLoop range) := by
    constructor
    · intro pc st hst
      by_cases hpc : pc = range.start
      · subst hpc
        obtain rfl := Option.some_inj.mp ((initialLoop_start range).symm.trans hst)
        exact h.entry.symm
      · rw [initialLoop_of_ne hpc] at hst
        cases hst
    · intro pc hpc
      obtain rfl := List.mem_singleton.mp hpc
      simpa [pcInRange] using h.start_lt
    · exact fun e he ↦ absurd he List.not_mem_nil
  exact (hinit.loop h).errors

/-! ## Global metadata -/

/-- Globals that take slots of their own. -/
def Apart (info info' : GlobalInfo) : Prop :=
  info.slot + width info ≤ info'.slot ∨ info'.slot + width info' ≤ info.slot

/-- The slots of a global that no other one has claimed. -/
theorem claimSlots_eq {name : String} {slot width : Nat} {claimed : List Bool}
    {errors : List VerificationError}
    (hfree : ∀ i, claimed[i]? = some true → i < slot ∨ slot + width ≤ i) :
    (claimSlots name slot width claimed errors).2 = errors ∧
      ∀ i, (claimSlots name slot width claimed errors).1[i]? = some true →
        claimed[i]? = some true ∨ slot ≤ i ∧ i < slot + width := by
  induction width with
  | zero => exact ⟨rfl, fun i h ↦ .inl h⟩
  | succ width ih =>
    obtain ⟨herrors, hclaimed⟩ := ih fun i hi ↦ (hfree i hi).imp_right fun h ↦ by omega
    rw [claimSlots, List.range_succ, List.foldl_append, ← claimSlots]
    generalize claimSlots name slot width claimed errors = claims at herrors hclaimed
    obtain ⟨claimed', errors'⟩ := claims
    obtain rfl : errors' = errors := herrors
    have hnew : claimed'[slot + width]? ≠ some true := by
      intro h
      rcases hclaimed _ h with h | ⟨-, h⟩
      · rcases hfree _ h with h | h <;> omega
      · exact Nat.lt_irrefl _ h
    refine ⟨if_neg hnew, fun i hi ↦ ?_⟩
    rw [List.foldl_cons, List.foldl_nil] at hi
    by_cases heq : slot + width = i
    · exact .inr ⟨by omega, by omega⟩
    · rw [List.getElem?_set_ne heq] at hi
      exact (hclaimed i hi).imp_right fun h ↦ ⟨h.1, by omega⟩

theorem verifyGlobalMetadata_eq {infos : List GlobalInfo} {claimed : List Bool}
    {errors : List VerificationError} (hok : ∀ info ∈ infos, GlobalOk info)
    (hapart : infos.Pairwise Apart)
    (hfree : ∀ info ∈ infos, ∀ i, claimed[i]? = some true →
      i < info.slot ∨ info.slot + width info ≤ i) :
    verifyGlobalMetadata infos claimed errors = errors := by
  induction infos generalizing claimed with
  | nil => rfl
  | cons info infos ih =>
    obtain ⟨⟨hsize, hlimit⟩, hok⟩ := List.forall_mem_cons.mp hok
    obtain ⟨hfirst, hapart⟩ := List.pairwise_cons.mp hapart
    obtain ⟨hinfo, hfree⟩ := List.forall_mem_cons.mp hfree
    have hmax : maxGlobalSlots ≤ usizeMax := by decide
    have hwidth := checkedAdd_eq_some.mpr ⟨hlimit.trans hmax, rfl⟩
    obtain ⟨herrors, hclaimed⟩ := @claimSlots_eq info.name _ _ _ errors hinfo
    rw [width] at hwidth hlimit herrors hclaimed
    rw [verifyGlobalMetadata, if_neg fun h ↦ hsize h.1 h.2]
    simp only [hwidth, gt_iff_lt, if_neg (Nat.not_lt.mpr hlimit), herrors]
    refine ih hok hapart fun info' hinfo' i hi ↦ ?_
    rcases hclaimed i hi with hi | ⟨hle, hlt⟩
    · exact hfree info' hinfo' i hi
    · have h := hfirst info' hinfo'
      rw [Apart, width] at h
      omega

end Verifier

end MiniLang
