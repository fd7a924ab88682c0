import MiniLang.Bytecode.Fixpoint
import MiniLang.Lib.FlowEquations

/-!
# The verifier solves its flow equations

In whatever order the worklist of `verifyFunction` is processed, the loop ends, and unless it
reports that stack depths are inconsistent, the states it leaves are the greatest solution of the
flow equations: the state at an instruction has the stack depth of all that arrives there, and the
locals that are initialised in all of it.

## The equations

A state is lower than another at the same depth if it takes fewer locals for initialised. States of
different depths have nothing below them in common, which is what the loop reports as an
inconsistency. `flowEquations` is an instance of the equations of the library, with the entry state
at the start of the function and the effect of an instruction along its edges.

## Greatest, in any order

Two invariants hold along every sequence of visits. The states of the loop are above every
assignment that covers the equations (`VisitStep.below`), since a join takes away no more than it
must; and a program counter that is not on the worklist has its successors covered (`Solving`). Once
the worklist is empty, the states cover the equations and are above all that do, so they are the
greatest solution, and no two orders differ.

The loop may report other errors and go on. Nothing in the argument asks for their absence: an
instruction that fails has no effect to send on, in the equations as in the loop.
-/

namespace MiniLang

namespace Verifier

open FlowEquations (Arrives Below Covers IsGreatest)

variable {program : CompiledProgram} {range : FunctionRange} {pc succ : Nat} {instr : Instruction}
  {st st' : AbstractState} {s s' : LoopState}

/-! ## The order on abstract states -/

theorem getElem?_eq_of_true {a b : List Bool} (hlen : a.length = b.length)
    (h : ∀ i : Nat, a[i]? = some true ↔ b[i]? = some true) : a = b := by
  refine List.ext_getElem hlen fun i ha hb ↦ ?_
  have hi := h i
  rw [List.getElem?_eq_getElem ha, List.getElem?_eq_getElem hb, Option.some_inj, Option.some_inj]
    at hi
  exact Bool.eq_iff_iff.mpr hi

/-- A state is lower when it knows less, at the same depth and with as many locals. -/
instance : PartialOrder AbstractState where
  le st st' := st.Le st' ∧ st.initializedLocals.length = st'.initializedLocals.length
  le_refl st := ⟨.refl st, rfl⟩
  le_trans _ _ _ h h' := ⟨h.1.trans h'.1, h.2.trans h'.2⟩
  le_antisymm st st' h h' := by
    obtain ⟨depth, locals⟩ := st
    obtain ⟨depth', locals'⟩ := st'
    obtain rfl : depth = depth' := h.1.1
    obtain rfl : locals = locals' :=
      getElem?_eq_of_true h.2 fun i ↦ ⟨h.1.2 i, h'.1.2 i⟩
    rfl

/-- The depth of all the states of `A`, with the locals that are initialised in each. -/
structure IsMeet (A : Set AbstractState) (st : AbstractState) : Prop where
  depth : ∀ st' ∈ A, st'.stackDepth = st.stackDepth
  length : ∀ st' ∈ A, st'.initializedLocals.length = st.initializedLocals.length
  initialized : ∀ i : Nat, st.initializedLocals[i]? = some true ↔
    ∀ st' ∈ A, st'.initializedLocals[i]? = some true

theorem IsMeet.isGLB {A : Set AbstractState} (hA : A.Nonempty) (h : IsMeet A st) : IsGLB A st := by
  constructor
  · intro st' hst'
    exact ⟨⟨(h.depth st' hst').symm, fun i hi ↦ (h.initialized i).mp hi st' hst'⟩,
      (h.length st' hst').symm⟩
  · intro lower hlower
    obtain ⟨st', hst'⟩ := hA
    obtain ⟨⟨hdepth, -⟩, hlen⟩ := hlower hst'
    exact ⟨⟨hdepth.trans (h.depth st' hst'), fun i hi ↦
      (h.initialized i).mpr fun st'' hst'' ↦ (hlower hst'').1.2 i hi⟩,
      hlen.trans (h.length st' hst')⟩

/-- States with a common lower bound have a meet. -/
theorem exists_isMeet {A : Set AbstractState} (hA : A.Nonempty) (hbdd : BddBelow A) :
    ∃ st, IsMeet A st := by
  classical
  obtain ⟨lower, hlower⟩ := hbdd
  refine ⟨⟨lower.stackDepth, (List.range lower.initializedLocals.length).map fun i ↦
    decide (∀ st' ∈ A, st'.initializedLocals[i]? = some true)⟩, fun st' hst' ↦ ?_, fun st' hst' ↦ ?_,
    fun i ↦ ?_⟩
  · exact (hlower hst').1.1.symm
  · rw [List.length_map, List.length_range]
    exact (hlower hst').2.symm
  · rw [List.getElem?_map]
    by_cases hi : i < lower.initializedLocals.length
    · rw [List.getElem?_range hi]
      simp
    · rw [List.getElem?_eq_none (by simpa using hi)]
      refine iff_of_false nofun fun h ↦ ?_
      obtain ⟨st', hst'⟩ := hA
      have hlt := (List.getElem?_eq_some_iff.mp (h st' hst')).1
      rw [← (hlower hst').2] at hlt
      exact hi hlt

theorem exists_isGLB {A : Set AbstractState} (hA : A.Nonempty) (hbdd : BddBelow A) :
    ∃ st, IsGLB A st := by
  obtain ⟨st, hst⟩ := exists_isMeet hA hbdd
  exact ⟨st, hst.isGLB hA⟩

/-- The meet that the order gives is the intersection. -/
theorem isMeet_of_isGLB {A : Set AbstractState} (hA : A.Nonempty) (h : IsGLB A st) :
    IsMeet A st := by
  obtain ⟨st', hst'⟩ := exists_isMeet hA ⟨st, h.1⟩
  rwa [h.unique (hst'.isGLB hA)]

/-- Joining two states in the loop is a meet. -/
theorem le_merged {existing lower : AbstractState} (h : lower ≤ existing) (h' : lower ≤ st) :
    lower ≤ ⟨existing.stackDepth,
      List.zipWith (· && ·) existing.initializedLocals st.initializedLocals⟩ := by
  refine ⟨⟨h.1.1, fun i hi ↦ ?_⟩, ?_⟩
  · change (List.zipWith (· && ·) existing.initializedLocals st.initializedLocals)[i]? = some true
    rw [List.getElem?_zipWith, h.1.2 i hi, h'.1.2 i hi]
    rfl
  · change _ = (List.zipWith (· && ·) existing.initializedLocals st.initializedLocals).length
    rw [List.length_zipWith, ← h.2, ← h'.2, Nat.min_self]

/-! ## The equations -/

/-- The flow equations of a function: the entry state arrives at the start, and an instruction
sends the state it steps to to its successors within the function. -/
def flowEquations (program : CompiledProgram) (range : FunctionRange) :
    FlowEquations.System Nat AbstractState where
  entry pc st := pc = range.start ∧ st = entryState range.info
  flow pc st succ st' := pcInRange range pc = true ∧ pcInRange range succ = true ∧
    ∃ instr step d, program.instructions[pc]? = some instr ∧
      (stepInstruction program range pc instr st).run ⟨[], []⟩ = .ok step d ∧
      succ ∈ step.successors ∧ st' = step.state

/-- An instruction sends its effect to its successors, unless it fails. -/
theorem flow_iff : (flowEquations program range).flow pc st succ st' ↔
    pcInRange range pc = true ∧ pcInRange range succ = true ∧
      ∃ instr, program.instructions[pc]? = some instr ∧ OperandsOk program range instr ∧
        pops instr ≤ st.stackDepth ∧ succ ∈ successors pc instr ∧ st' = after instr st := by
  refine and_congr_right fun _ ↦ and_congr_right fun _ ↦ ⟨?_, ?_⟩
  · rintro ⟨instr, step, d, hinstr, hrun, hsucc, hst'⟩
    by_cases hok : OperandsOk program range instr ∧ pops instr ≤ st.stackDepth
    · rw [run_stepInstruction hok.1 hok.2] at hrun
      cases hrun
      exact ⟨instr, hinstr, hok.1, hok.2, hsucc, hst'⟩
    · obtain ⟨d', hfails, -⟩ := fails_stepInstruction pc hok ⟨[], []⟩
      rw [hfails] at hrun
      cases hrun
  · rintro ⟨instr, hinstr, hops, hdepth, hsucc, hst'⟩
    exact ⟨instr, _, _, hinstr, run_stepInstruction hops hdepth, hsucc, hst'⟩

theorem after_mono (instr : Instruction) (h : st' ≤ st) : after instr st' ≤ after instr st := by
  obtain ⟨⟨hdepth, hknows⟩, hlen⟩ := h
  refine ⟨⟨?_, fun i hi ↦ ?_⟩, ?_⟩
  · rw [after, after, hdepth]
  · rw [after] at hi ⊢
    dsimp only at hi ⊢
    split at hi
    · next hop =>
      rw [if_pos hop]
      by_cases heq : asUsize instr.arg1 = i
      · subst heq
        have hlt := (List.getElem?_eq_some_iff.mp hi).1
        rw [List.length_set] at hlt
        exact List.getElem?_set_self (hlen ▸ hlt)
      · rw [List.getElem?_set_ne heq] at hi ⊢
        exact hknows i hi
    · next hop =>
      rw [if_neg hop]
      exact hknows i hi
  · rw [length_after, length_after, hlen]

theorem monotone_flowEquations (program : CompiledProgram) (range : FunctionRange) :
    FlowEquations.Monotone (flowEquations program range) := by
  intro pc st st' succ y hflow hle
  obtain ⟨hpc, hrange, instr, hinstr, hops, hdepth, hsucc, rfl⟩ := flow_iff.mp hflow
  refine ⟨after instr st', after_mono instr hle, flow_iff.mpr ?_⟩
  exact ⟨hpc, hrange, instr, hinstr, hops, hle.1.1 ▸ hdepth, hsucc, rfl⟩

/-! ## Errors are never withdrawn -/

/-- `x` keeps the errors reported before. -/
def KeepsErrors {α : Type} (x : CheckM α) : Prop :=
  ∀ e, EStateM.Keeps (fun d : Diagnostics ↦ e ∈ d.errors) x

namespace KeepsErrors

variable {α β : Type} {x : CheckM α} {f : α → CheckM β}

theorem bind (hx : KeepsErrors x) (hf : ∀ a, KeepsErrors (f a)) : KeepsErrors (x >>= f) :=
  fun e ↦ (hx e).bind fun a ↦ hf a e

theorem pure (a : α) : KeepsErrors (Pure.pure a : CheckM α) := fun _ ↦ .pure a

theorem fail (message : String) : KeepsErrors (Verifier.fail pc message : CheckM α) :=
  fun _ _ hmem ↦ List.mem_append_left _ hmem

theorem possibleTrap (trap : TrapCode) : KeepsErrors (Verifier.possibleTrap trap) :=
  fun _ _ hmem ↦ hmem

theorem ite {p : Prop} [Decidable p] {y : CheckM α} (hx : KeepsErrors x) (hy : KeepsErrors y) :
    KeepsErrors (if p then x else y) := fun e ↦ (hx e).ite (hy e)

theorem popStack (count : Nat) : KeepsErrors (popStack pc st count) := ite (fail _) (pure _)

theorem localSlot (arg : Int32) : KeepsErrors (localSlot range pc arg) :=
  ite (fail _) (ite (fail _) (pure _))

theorem globalSlot (arg : Int32) : KeepsErrors (globalSlot pc arg) :=
  ite (fail _) (ite (fail _) (pure _))

theorem arraySize (arg : Int32) : KeepsErrors (arraySize pc arg) := ite (fail _) (pure _)

theorem globalArrayRange (arg arg' : Int32) : KeepsErrors (globalArrayRange pc arg arg') :=
  (globalSlot arg).bind fun _ ↦ (arraySize arg').bind fun _ ↦ ite (fail _) (pure _)

theorem jumpTarget (arg : Int32) : KeepsErrors (jumpTarget range pc arg) :=
  ite (fail _) (ite (pure _) (fail _))

theorem checkInitialized (slot : Nat) : KeepsErrors (checkInitialized st slot) :=
  ite (pure _) (possibleTrap _)

theorem stepInstruction : KeepsErrors (stepInstruction program range pc instr st) := by
  obtain ⟨opcode, arg1, arg2⟩ := instr
  cases opcode with
  | loadConst | halt => exact pure _
  | loadLocal => exact (localSlot _).bind fun _ ↦ (checkInitialized _).bind fun _ ↦ pure _
  | storeLocal => exact (popStack _).bind fun _ ↦ (localSlot _).bind fun _ ↦ pure _
  | loadGlobal => exact (globalSlot _).bind fun _ ↦ pure _
  | storeGlobal => exact (popStack _).bind fun _ ↦ (globalSlot _).bind fun _ ↦ pure _
  | add | sub | mul | eq | ne | lt | gt | le | ge | and | or | neg | not | print | pop | «return» =>
    exact (popStack _).bind fun _ ↦ pure _
  | div => exact (popStack _).bind fun _ ↦ (possibleTrap _).bind fun _ ↦ pure _
  | jump =>
    exact (jumpTarget _).bind fun _ ↦ ite ((possibleTrap _).bind fun _ ↦ pure _) (pure _)
  | jumpIfFalse | jumpIfTrue =>
    exact (popStack _).bind fun _ ↦ (jumpTarget _).bind fun _ ↦
      ite ((possibleTrap _).bind fun _ ↦ pure _) (pure _)
  | call =>
    simp only [Verifier.stepInstruction]
    refine ite (fail _) (ite (fail _) ?_)
    split
    · exact fail _
    · exact ite (fail _) ((popStack _).bind fun _ ↦ pure _)
  | arrayLoad | arrayStore =>
    exact (globalArrayRange _ _).bind fun _ ↦ (popStack _).bind fun _ ↦ (possibleTrap _).bind
      fun _ ↦ pure _
  | localArrayLoad | localArrayStore =>
    exact (arraySize _).bind fun _ ↦ (localSlot _).bind fun _ ↦ (checkInitialized _).bind
      fun _ ↦ (popStack _).bind fun _ ↦ (possibleTrap _).bind fun _ ↦ pure _
  | arrayNew | allocArray => exact (arraySize _).bind fun _ ↦ pure _
  | dup => exact ite (fail _) (pure _)

end KeepsErrors

/-- The message for stack depths that differ where control flow joins. -/
def IsInconsistency (e : VerificationError) : Prop :=
  ∃ pc depth other : Nat, e =
    ⟨some pc, s!"inconsistent stack depth at PC {pc}: saw {depth} and {other}"⟩

/-- No stack-depth inconsistency has been reported. -/
def Consistent (s : LoopState) : Prop := ∀ e ∈ s.diagnostics.errors, ¬IsInconsistency e

/-- `s'` has the errors of `s`, and maybe more. -/
def ErrorsGrow (s s' : LoopState) : Prop :=
  ∀ e ∈ s.diagnostics.errors, e ∈ s'.diagnostics.errors

theorem ErrorsGrow.consistent (h : ErrorsGrow s s') (h' : Consistent s') : Consistent s :=
  fun e he ↦ h' e (h e he)

theorem errorsGrow_error (s : LoopState) (pc : Nat) (message : String) :
    ErrorsGrow s (s.error pc message) := fun _ he ↦ List.mem_append_left _ he

theorem errorsGrow_propagate (range : FunctionRange) (pc succ : Nat) (st : AbstractState)
    (s : LoopState) : ErrorsGrow s (propagate range pc st s succ) := by
  rw [propagate]
  split
  · split
    · split
      · exact errorsGrow_error _ _ _
      · dsimp only
        split
        · exact fun _ he ↦ he
        · exact fun _ he ↦ he
    · exact fun _ he ↦ he
  · exact errorsGrow_error _ _ _

theorem errorsGrow_foldl_propagate (range : FunctionRange) (pc : Nat) (st : AbstractState)
    (succs : List Nat) (s : LoopState) : ErrorsGrow s (succs.foldl (propagate range pc st) s) := by
  induction succs generalizing s with
  | nil => exact fun _ he ↦ he
  | cons succ succs ih => exact fun e he ↦ ih _ e (errorsGrow_propagate range pc succ st s e he)

/-! ## One visit -/

/-- What a visit of `pc` does: it joins `st` into the states of `succs`, after nothing but
diagnostics has changed. -/
structure VisitsAs (program : CompiledProgram) (range : FunctionRange) (pc : Nat) (s s' : LoopState)
    (st : AbstractState) (succs : List Nat) : Prop where
  eq : visit program range pc s = succs.foldl (propagate range pc st) s'
  states : s'.states = s.states
  worklist : s'.worklist = s.worklist
  errors : ErrorsGrow s s'
  arrives : ∀ succ ∈ succs, ∃ st₀, s.states pc = some st₀ ∧
    st.initializedLocals.length = st₀.initializedLocals.length ∧
    (pcInRange range succ = true → (flowEquations program range).flow pc st₀ succ st)
  sends : ∀ st₀ succ y, s.states pc = some st₀ → (flowEquations program range).flow pc st₀ succ y →
    succ ∈ succs ∧ y = st

/-- A visit that joins nothing. -/
theorem VisitsAs.nil {s' : LoopState} (heq : visit program range pc s = s')
    (hstates : s'.states = s.states) (hworklist : s'.worklist = s.worklist)
    (herrors : ErrorsGrow s s') (st : AbstractState)
    (hno : ∀ st₀ succ y, s.states pc = some st₀ →
      ¬(flowEquations program range).flow pc st₀ succ y) :
    VisitsAs program range pc s s' st [] where
  eq := heq
  states := hstates
  worklist := hworklist
  errors := herrors
  arrives _ hmem := absurd hmem List.not_mem_nil
  sends st₀ succ y hst₀ hflow := absurd hflow (hno st₀ succ y hst₀)

theorem finishStep_joins (range : FunctionRange) (pc : Nat) (s : LoopState) (step : Step) :
    ∃ s', finishStep range pc s step = step.successors.foldl (propagate range pc step.state) s' ∧
      s'.states = s.states ∧ s'.worklist = s.worklist ∧ ErrorsGrow s s' := by
  rw [finishStep]
  refine ⟨_, rfl, ?_⟩
  split
  · exact ⟨rfl, rfl, fun _ he ↦ List.mem_append_left _ he⟩
  · exact ⟨rfl, rfl, fun _ he ↦ he⟩

theorem exists_visitsAs (program : CompiledProgram) (range : FunctionRange) (pc : Nat)
    (s : LoopState) : ∃ s' st succs, VisitsAs program range pc s s' st succs := by
  by_cases hpc : pcInRange range pc = true
  · cases hst : s.states pc with
    | none =>
      refine ⟨s, ⟨0, []⟩, [], .nil ?_ rfl rfl (fun _ he ↦ he) _ fun st₀ succ y hst₀ ↦ ?_⟩
      · rw [visit, if_pos hpc, hst]
      · rw [hst] at hst₀
        cases hst₀
    | some st =>
      cases hinstr : program.instructions[pc]? with
      | none =>
        refine ⟨s, ⟨0, []⟩, [], .nil ?_ rfl rfl (fun _ he ↦ he) _ fun st₀ succ y hst₀ hflow ↦ ?_⟩
        · rw [visit, if_pos hpc, hst, hinstr]
        · obtain ⟨-, -, instr, hsome, -⟩ := flow_iff.mp hflow
          rw [hinstr] at hsome
          cases hsome
      | some instr =>
        -- the instruction sends its effect to its successors, or is reported and sends nothing
        by_cases hok : OperandsOk program range instr ∧ pops instr ≤ st.stackDepth
        · have hrun := @run_stepInstruction _ _ pc _ _ s.diagnostics hok.1 hok.2
          let s₁ : LoopState := { s with
            reachable := if pc ∈ s.reachable then s.reachable else pc :: s.reachable
            maxStackDepth := max s.maxStackDepth st.stackDepth
            diagnostics := s.diagnostics.addTraps (recordedTraps pc instr st) }
          obtain ⟨s', heq, hstates, hworklist, herrors⟩ := finishStep_joins range pc s₁
            ⟨after instr st, successors pc instr, callEdges range instr⟩
          refine ⟨s', after instr st, successors pc instr,
            ⟨?_, hstates, hworklist, herrors, fun succ hsucc ↦ ?_, ?_⟩⟩
          · rw [visit, if_pos hpc, hst, hinstr]
            dsimp only
            rw [hrun]
            exact heq
          · exact ⟨st, hst, length_after instr st, fun hrange ↦
              flow_iff.mpr ⟨hpc, hrange, instr, hinstr, hok.1, hok.2, hsucc, rfl⟩⟩
          · intro st₀ succ y hst₀ hflow
            obtain rfl := Option.some_inj.mp (hst.symm.trans hst₀)
            obtain ⟨-, -, instr', hinstr', -, -, hsucc, rfl⟩ := flow_iff.mp hflow
            obtain rfl := Option.some_inj.mp (hinstr.symm.trans hinstr')
            exact ⟨hsucc, rfl⟩
        · obtain ⟨d', hrun, -⟩ := fails_stepInstruction pc hok s.diagnostics
          let s₁ : LoopState := { s with
            reachable := if pc ∈ s.reachable then s.reachable else pc :: s.reachable
            maxStackDepth := max s.maxStackDepth st.stackDepth
            diagnostics := d' }
          refine ⟨s₁, ⟨0, []⟩, [],
            @VisitsAs.nil program range pc s s₁ ?_ rfl rfl (fun e he ↦ ?_) _
              fun st₀ succ y hst₀ hflow ↦ ?_⟩
          · rw [visit, if_pos hpc, hst, hinstr]
            dsimp only
            rw [hrun]
          · have hkeeps := @KeepsErrors.stepInstruction program range pc instr st e
              s.diagnostics he
            rw [hrun] at hkeeps
            exact hkeeps
          · obtain rfl := Option.some_inj.mp (hst.symm.trans hst₀)
            obtain ⟨-, -, instr', hinstr', hops, hdepth, -⟩ := flow_iff.mp hflow
            obtain rfl := Option.some_inj.mp (hinstr.symm.trans hinstr')
            exact hok ⟨hops, hdepth⟩
  -- an address outside of the function is reported
  · have hvisit : ∃ message, visit program range pc s = s.error pc message := by
      rw [visit, if_neg hpc]
      exact ⟨_, rfl⟩
    obtain ⟨message, hvisit⟩ := hvisit
    exact ⟨s.error pc message, ⟨0, []⟩, [], .nil hvisit rfl rfl
      (errorsGrow_error _ _ _) _ fun st₀ succ y _ hflow ↦ hpc (flow_iff.mp hflow).1⟩

/-! ## Joining into the states -/

/-- Every state has a flag for each local. -/
def Sized (range : FunctionRange) (s : LoopState) : Prop :=
  ∀ pc st, s.states pc = some st → st.initializedLocals.length = range.info.localCount

theorem Sized.update (h : Sized range s) (hlen : st.initializedLocals.length = range.info.localCount)
    (worklist : List Nat) : Sized range { s with
      states := Function.update s.states pc (some st)
      worklist := worklist } := by
  intro pc' st' hst'
  have hst' : Function.update s.states pc (some st) pc' = some st' := hst'
  by_cases heq : pc' = pc
  · subst heq
    rw [Function.update_self] at hst'
    obtain rfl := Option.some_inj.mp hst'
    exact hlen
  · rw [Function.update_of_ne heq] at hst'
    exact h pc' st' hst'

theorem Sized.propagate (h : Sized range s)
    (hlen : st.initializedLocals.length = range.info.localCount) (pc succ : Nat) :
    Sized range (propagate range pc st s succ) := by
  rw [Verifier.propagate]
  split
  · split
    · next existing hexisting =>
      split
      · exact h
      · dsimp only
        split
        · exact h
        · refine h.update ?_ _
          rw [List.length_zipWith, h succ existing hexisting, hlen, Nat.min_self]
    · exact h.update hlen _
  · exact h

/-- States that cover the equations stay below those of the loop. -/
theorem below_propagate {T : Nat → Option AbstractState} (h : Below T s.states) (pc : Nat)
    (hT : pcInRange range succ = true → ∃ t ≤ st, T succ = some t) :
    Below T (propagate range pc st s succ).states := by
  have hupdate (st' : AbstractState) (hst' : ∃ t ≤ st', T succ = some t) :
      Below T (Function.update s.states succ (some st')) := by
    intro pc' x hx
    by_cases heq : pc' = succ
    · subst heq
      rw [Function.update_self] at hx
      obtain rfl := Option.some_inj.mp hx
      exact hst'
    · rw [Function.update_of_ne heq] at hx
      exact h pc' x hx
  rw [propagate]
  split
  · next hrange =>
    obtain ⟨t, ht, hsucc⟩ := hT hrange
    split
    · next existing hexisting =>
      split
      · exact h
      · dsimp only
        split
        · exact h
        · obtain ⟨t', ht', hsucc'⟩ := h succ existing hexisting
          obtain rfl := Option.some_inj.mp (hsucc.symm.trans hsucc')
          exact hupdate _ ⟨t, le_merged ht' ht, hsucc⟩
    · exact hupdate _ ⟨t, ht, hsucc⟩
  · exact h

/-- The state of a successor is covered, unless the depths differ. -/
theorem covered_propagate (hsized : Sized range s)
    (hlen : st.initializedLocals.length = range.info.localCount) (pc : Nat)
    (hrange : pcInRange range succ = true)
    (hdepth : ∀ existing, s.states succ = some existing → existing.stackDepth = st.stackDepth) :
    ∃ x ≤ st, (propagate range pc st s succ).states succ = some x := by
  rw [propagate, if_pos hrange]
  cases hexisting : s.states succ with
  | none => exact ⟨st, le_rfl, Function.update_self ..⟩
  | some existing =>
    have heq := hdepth existing hexisting
    have hexistingLen := hsized succ existing hexisting
    dsimp only
    rw [if_neg (not_not_intro heq)]
    split
    · next hmerged =>
      refine ⟨existing, ⟨⟨heq, fun i hi ↦ ?_⟩, hexistingLen.trans hlen.symm⟩, hexisting⟩
      rw [← hmerged] at hi
      exact (getElem?_zipWith_and hi).2
    · refine ⟨⟨existing.stackDepth,
        List.zipWith (· && ·) existing.initializedLocals st.initializedLocals⟩,
        ⟨⟨heq, fun i hi ↦ (getElem?_zipWith_and hi).2⟩, ?_⟩, Function.update_self ..⟩
      change (List.zipWith (· && ·) existing.initializedLocals st.initializedLocals).length = _
      rw [List.length_zipWith, hexistingLen, hlen, Nat.min_self]

/-- Depths that differ are reported. -/
theorem depth_eq_of_consistent (pc : Nat) (hrange : pcInRange range succ = true)
    (h : Consistent (propagate range pc st s succ)) :
    ∀ existing, s.states succ = some existing → existing.stackDepth = st.stackDepth := by
  intro existing hexisting
  by_contra hne
  rw [propagate, if_pos hrange, hexisting] at h
  dsimp only at h
  rw [if_pos hne] at h
  exact h _ (List.mem_append_right _ List.mem_cons_self) ⟨_, _, _, rfl⟩

/-- The depths agree: nothing inconsistent is reported in the end, or states that cover the
equations are below. -/
def Agrees (range : FunctionRange) (st : AbstractState) (succs : List Nat) (s s' : LoopState) :
    Prop :=
  Consistent s' ∨ ∃ T : Nat → Option AbstractState, Below T s.states ∧
    ∀ succ ∈ succs, pcInRange range succ = true → ∃ t ≤ st, T succ = some t

/-- The states of all successors are covered afterwards. -/
theorem covered_foldl_propagate {succs : List Nat} (hsized : Sized range s)
    (hlen : st.initializedLocals.length = range.info.localCount) (pc : Nat)
    (hagrees : Agrees range st succs s (succs.foldl (propagate range pc st) s)) :
    Sized range (succs.foldl (propagate range pc st) s) ∧
      ∀ succ ∈ succs, pcInRange range succ = true →
        ∃ x ≤ st, (succs.foldl (propagate range pc st) s).states succ = some x := by
  induction succs generalizing s with
  | nil => exact ⟨hsized, fun _ hmem ↦ absurd hmem List.not_mem_nil⟩
  | cons succ succs ih =>
    have hsized' := hsized.propagate hlen pc succ
    have hagrees' : Agrees range st succs (propagate range pc st s succ)
        ((succ :: succs).foldl (propagate range pc st) s) := by
      refine hagrees.imp_right ?_
      rintro ⟨T, hT, hsuccs⟩
      obtain ⟨hfirst, hrest⟩ := List.forall_mem_cons.mp hsuccs
      exact ⟨T, below_propagate hT pc hfirst, hrest⟩
    obtain ⟨hsized'', hrest⟩ := ih hsized' hagrees'
    refine ⟨hsized'', fun succ' hmem hrange ↦ ?_⟩
    rcases List.mem_cons.mp hmem with rfl | hmem
    · have hdepth : ∀ existing, s.states succ' = some existing →
          existing.stackDepth = st.stackDepth := by
        rcases hagrees with hconsistent | ⟨T, hT, hsuccs⟩
        · apply depth_eq_of_consistent pc hrange
          exact (errorsGrow_foldl_propagate range pc st succs _).consistent hconsistent
        · intro existing hexisting
          obtain ⟨t, ht, hsucc⟩ := hsuccs succ' List.mem_cons_self hrange
          obtain ⟨t', ht', hsucc'⟩ := hT succ' existing hexisting
          obtain rfl := Option.some_inj.mp (hsucc.symm.trans hsucc')
          exact ht'.1.1.symm.trans ht.1.1
      obtain ⟨x, hx, hstate⟩ := covered_propagate hsized hlen pc hrange hdepth
      obtain ⟨x', hx', hle⟩ := (advances_foldl_propagate range pc st succs _).1.lowered _ x hstate
      refine ⟨x', le_trans ?_ hx, hx'⟩
      exact ⟨hle, (hsized'' _ _ hx').trans (hsized' _ _ hstate).symm⟩
    · exact hrest succ' hmem hrange

/-! ## Processing the worklist in any order -/

/-- One iteration, for any instruction of the worklist. -/
inductive VisitStep (program : CompiledProgram) (range : FunctionRange) :
    LoopState → LoopState → Prop
  | visit {s : LoopState} {before after : List Nat} {pc : Nat} :
    s.worklist = before ++ pc :: after →
    VisitStep program range s (visit program range pc { s with worklist := before ++ after })

/-- `s` is what is left when the worklist has been processed in some order. -/
def Processed (program : CompiledProgram) (range : FunctionRange) (s : LoopState) : Prop :=
  Relation.ReflTransGen (VisitStep program range) (initialLoop range) s ∧ s.worklist = []

/-- The invariant of the loop in any order. -/
structure Solving (program : CompiledProgram) (range : FunctionRange) (s : LoopState) : Prop where
  sized : Sized range s
  entry : ∃ x ≤ entryState range.info, s.states range.start = some x
  settled : ∀ pc st, s.states pc = some st → pc ∈ s.worklist ∨
    ∀ succ y, (flowEquations program range).flow pc st succ y →
      ∃ x ≤ y, s.states succ = some x

theorem ErrorsGrow.trans {s'' : LoopState} (h : ErrorsGrow s s') (h' : ErrorsGrow s' s'') :
    ErrorsGrow s s'' := fun e he ↦ h' e (h e he)

theorem VisitStep.errorsGrow (h : VisitStep program range s s') : ErrorsGrow s s' := by
  cases h with
  | @visit before after pc hwork =>
    obtain ⟨s₁, st, succs, hvisit⟩ :=
      exists_visitsAs program range pc { s with worklist := before ++ after }
    rw [hvisit.eq]
    exact hvisit.errors.trans (errorsGrow_foldl_propagate range pc st succs s₁)

/-- States that cover the equations are below those of the loop, and stay so. -/
theorem VisitStep.below {T : Nat → Option AbstractState}
    (hcovers : Covers (flowEquations program range) T) (h : VisitStep program range s s')
    (hT : Below T s.states) : Below T s'.states := by
  cases h with
  | @visit before after pc hwork =>
    obtain ⟨s₁, st, succs, hvisit⟩ :=
      exists_visitsAs program range pc { s with worklist := before ++ after }
    rw [hvisit.eq]
    have hsuccs : ∀ succ ∈ succs, pcInRange range succ = true → ∃ t ≤ st, T succ = some t := by
      intro succ hsucc hrange
      obtain ⟨st₀, hst₀, -, hflow⟩ := hvisit.arrives succ hsucc
      exact hT.of_arrives (monotone_flowEquations program range) hcovers
        (.inr ⟨pc, st₀, hst₀, hflow hrange⟩)
    have hfirst : Below T s₁.states := by
      rw [hvisit.states]
      exact hT
    clear hvisit
    induction succs generalizing s₁ with
    | nil => exact hfirst
    | cons succ succs ih =>
      obtain ⟨hsucc, hsuccs⟩ := List.forall_mem_cons.mp hsuccs
      exact ih _ hsuccs (below_propagate hfirst pc hsucc)

/-- **The step lemma.** A visit keeps the invariant, as long as the depths agree. -/
theorem Solving.step (h : Solving program range s) (hstep : VisitStep program range s s')
    (hagrees : Consistent s' ∨ ∃ T, Covers (flowEquations program range) T ∧ Below T s.states) :
    Solving program range s' := by
  cases hstep with
  | @visit before after pc hwork =>
    obtain ⟨s₁, st, succs, hvisit⟩ :=
      exists_visitsAs program range pc { s with worklist := before ++ after }
    rw [hvisit.eq] at hagrees ⊢
    have hstates : s₁.states = s.states := hvisit.states
    have hworklist : s₁.worklist = before ++ after := hvisit.worklist
    have hsized : Sized range s₁ := fun pc' st' hst' ↦ h.sized pc' st' (hstates ▸ hst')
    -- the successors have states at or below what was sent to them
    have hfold : Sized range (succs.foldl (propagate range pc st) s₁) ∧
        ∀ succ ∈ succs, pcInRange range succ = true →
          ∃ x ≤ st, (succs.foldl (propagate range pc st) s₁).states succ = some x := by
      cases hsuccs : succs with
      | nil => exact ⟨hsized, fun _ hmem ↦ absurd hmem List.not_mem_nil⟩
      | cons succ rest =>
        rw [← hsuccs]
        obtain ⟨st₀, hst₀, hlen, -⟩ := hvisit.arrives succ (hsuccs ▸ List.mem_cons_self)
        refine covered_foldl_propagate hsized (hlen.trans (h.sized pc st₀ hst₀)) pc
          (hagrees.imp_right ?_)
        rintro ⟨T, hcovers, hT⟩
        refine ⟨T, hstates ▸ hT, fun succ' hsucc' hrange ↦ ?_⟩
        obtain ⟨st₁, hst₁, -, hflow⟩ := hvisit.arrives succ' hsucc'
        exact hT.of_arrives (monotone_flowEquations program range) hcovers
          (.inr ⟨pc, st₁, hst₁, hflow hrange⟩)
    obtain ⟨hsized', hcovered⟩ := hfold
    have hadv := (advances_foldl_propagate range pc st succs s₁).1
    -- and no state has risen
    have hlowered : ∀ pc' x, s.states pc' = some x →
        ∃ x' ≤ x, (succs.foldl (propagate range pc st) s₁).states pc' = some x' := by
      intro pc' x hx
      obtain ⟨x', hx', hle⟩ := hadv.lowered pc' x (hstates ▸ hx)
      exact ⟨x', ⟨hle, (hsized' _ _ hx').trans (h.sized _ _ hx).symm⟩, hx'⟩
    refine ⟨hsized', ?_, fun pc' st' hst' ↦ ?_⟩
    · obtain ⟨x, hx, hentry⟩ := h.entry
      obtain ⟨x', hx', hentry'⟩ := hlowered _ x hentry
      exact ⟨x', hx'.trans hx, hentry'⟩
    -- a state that has changed is queued; another was settled before, or is the visited one
    · rcases hadv.queued pc' st' hst' with hold | hqueued
      · rw [hstates] at hold
        by_cases hmem : pc' ∈ before ++ after
        · exact .inl (hadv.worklist pc' (hworklist ▸ hmem))
        · refine .inr fun succ y hflow ↦ ?_
          rcases h.settled pc' st' hold with hqueue | hsettled
          · -- it is the instruction that has just been visited
            have heq : pc' = pc := by
              rw [hwork] at hqueue
              rw [List.mem_append, List.mem_cons] at hqueue
              rw [List.mem_append] at hmem
              tauto
            subst heq
            obtain ⟨hsucc, rfl⟩ := hvisit.sends st' succ y hold hflow
            exact hcovered succ hsucc (flow_iff.mp hflow).2.1
          · obtain ⟨x, hx, hstate⟩ := hsettled succ y hflow
            obtain ⟨x', hx', hstate'⟩ := hlowered _ x hstate
            exact ⟨x', hx'.trans hx, hstate'⟩
      · exact .inl hqueued

theorem below_of_reaches {T : Nat → Option AbstractState}
    (hcovers : Covers (flowEquations program range) T)
    (hsteps : Relation.ReflTransGen (VisitStep program range) s s') (h : Below T s.states) :
    Below T s'.states := by
  induction hsteps with
  | refl => exact h
  | tail _ hlast ih => exact hlast.below hcovers ih

/-- The invariant holds after any number of visits. -/
theorem solving_of_reaches (hstep : Relation.ReflTransGen (VisitStep program range) s s')
    (h : Solving program range s)
    (hagrees : Consistent s' ∨ ∃ T, Covers (flowEquations program range) T ∧ Below T s.states) :
    Solving program range s' := by
  induction hstep with
  | refl => exact h
  | @tail s₁ s₂ hsteps hlast ih =>
    refine (ih ?_).step hlast ?_
    · exact hagrees.imp_left hlast.errorsGrow.consistent
    · refine hagrees.imp_right ?_
      rintro ⟨T, hT, hbelow⟩
      exact ⟨T, hT, below_of_reaches hT hsteps hbelow⟩

theorem length_entryState (info : FunctionInfo) :
    (entryState info).initializedLocals.length = info.localCount := by
  rw [entryState, List.length_map, List.length_range]

theorem eq_of_initialLoop (h : (initialLoop range).states pc = some st) :
    pc = range.start ∧ st = entryState range.info := by
  by_cases hpc : pc = range.start
  · subst hpc
    exact ⟨rfl, (Option.some_inj.mp ((initialLoop_start range).symm.trans h)).symm⟩
  · rw [initialLoop_of_ne hpc] at h
    cases h

theorem solving_initialLoop (program : CompiledProgram) (range : FunctionRange) :
    Solving program range (initialLoop range) where
  sized pc st h := by
    obtain ⟨-, rfl⟩ := eq_of_initialLoop h
    exact length_entryState range.info
  entry := ⟨_, le_rfl, initialLoop_start range⟩
  settled pc st h := by
    obtain ⟨rfl, -⟩ := eq_of_initialLoop h
    exact .inl List.mem_cons_self

theorem below_initialLoop {T : Nat → Option AbstractState}
    (hcovers : Covers (flowEquations program range) T) : Below T (initialLoop range).states := by
  intro pc x h
  obtain ⟨rfl, rfl⟩ := eq_of_initialLoop h
  exact hcovers _ _ (.inl ⟨rfl, rfl⟩)

/-- Once the worklist is empty, the states cover the equations. -/
theorem Solving.covers (h : Solving program range s) (hwork : s.worklist = []) :
    Covers (flowEquations program range) s.states := by
  rintro pc y (⟨rfl, rfl⟩ | ⟨pc', st, hst, hflow⟩)
  · exact h.entry
  · refine (h.settled pc' st hst).elim (fun hmem ↦ ?_) fun hsettled ↦ hsettled pc y hflow
    rw [hwork] at hmem
    cases hmem

theorem Processed.isGreatest (h : Processed program range s)
    (hagrees : Consistent s ∨ ∃ T, Covers (flowEquations program range) T) :
    IsGreatest (flowEquations program range) s.states := by
  have hsolving := solving_of_reaches h.1 (solving_initialLoop program range)
    (hagrees.imp_right fun ⟨T, hT⟩ ↦ ⟨T, hT, below_initialLoop hT⟩)
  exact FlowEquations.isGreatest_of_covers (monotone_flowEquations program range)
    (fun A hA hbdd ↦ exists_isGLB hA hbdd) (hsolving.covers h.2)
    fun T hT ↦ below_of_reaches hT h.1 (below_initialLoop hT)

/-! ## Termination in any order -/

/-- The states are those of instructions of the function, unless it has none. -/
def Ready (range : FunctionRange) (s : LoopState) : Prop :=
  Shaped range s ∨ range.stop ≤ range.start

theorem VisitStep.measure (h : VisitStep program range s s') (hready : Ready range s) :
    Ready range s' ∧ Verifier.measure range s' < Verifier.measure range s := by
  cases h with
  | @visit before after pc hwork =>
    have hlt : Verifier.measure range { s with worklist := before ++ after } <
        Verifier.measure range s := by
      rw [Verifier.measure, Verifier.measure, hwork, List.length_append, List.length_append,
        List.length_cons]
      dsimp only
      omega
    rcases hready with hshaped | hempty
    · obtain ⟨s₁, st, succs, hvisit⟩ :=
        exists_visitsAs program range pc { s with worklist := before ++ after }
      rw [hvisit.eq]
      have hshaped₁ : Shaped range s₁ := fun pc' st' hst' ↦ hshaped pc' st' (hvisit.states ▸ hst')
      have hmeasure : Verifier.measure range s₁ =
          Verifier.measure range { s with worklist := before ++ after } := by
        rw [Verifier.measure, Verifier.measure, hvisit.states, hvisit.worklist]
      cases hsuccs : succs with
      | nil => exact ⟨.inl hshaped₁, hmeasure.trans_lt hlt⟩
      | cons succ rest =>
        obtain ⟨st₀, hst₀, hlen, -⟩ := hvisit.arrives succ (hsuccs ▸ List.mem_cons_self)
        obtain ⟨hshaped', hle⟩ := measure_foldl_propagate pc hshaped₁
          (hlen.trans (hshaped pc st₀ hst₀).2) (succ :: rest)
        exact ⟨.inl hshaped', (hle.trans_eq hmeasure).trans_lt hlt⟩
    · have hrange : ¬pcInRange range pc = true := by
        rw [pcInRange, Bool.and_eq_true, decide_eq_true_iff, decide_eq_true_iff]
        omega
      rw [Verifier.visit, if_neg hrange]
      exact ⟨.inr hempty, hlt⟩

theorem ready_initialLoop (range : FunctionRange) : Ready range (initialLoop range) := by
  rcases Nat.lt_or_ge range.start range.stop with hlt | hle
  · exact .inl (loopInv_initialLoop ⟨[], ∅, ∅, 0, []⟩ hlt).shaped
  · exact .inr hle

/-- No order goes on for ever. -/
theorem acc_of_ready (program : CompiledProgram) (hready : Ready range s) :
    Acc (fun s₂ s₁ ↦ VisitStep program range s₁ s₂) s := by
  induction hn : measure range s using Nat.strong_induction_on generalizing s with
  | _ n ih =>
    refine Acc.intro s fun s' hstep ↦ ?_
    obtain ⟨hready', hlt⟩ := hstep.measure hready
    exact ih _ (hn ▸ hlt) hready' rfl

/-- The loop of the source takes the first instruction of the worklist until it is empty. -/
theorem processed_loop {fuel : Nat} (hready : Ready range s) (hfuel : measure range s ≤ fuel) :
    Relation.ReflTransGen (VisitStep program range) s (loop program range fuel s) ∧
      (loop program range fuel s).worklist = [] := by
  induction fuel generalizing s with
  | zero =>
    have hlen : s.worklist.length ≤ measure range s := Nat.le_add_right _ _
    exact ⟨.refl, List.eq_nil_of_length_eq_zero (Nat.le_zero.mp (hlen.trans hfuel))⟩
  | succ fuel ih =>
    rw [loop]
    split
    · next hwork => exact ⟨.refl, hwork⟩
    · next pc rest hwork =>
      have hstep : VisitStep program range s
          (visit program range pc { s with worklist := rest }) :=
        @VisitStep.visit program range s [] rest pc hwork
      obtain ⟨hready', hlt⟩ := hstep.measure hready
      obtain ⟨hsteps, hempty⟩ := ih hready' (by omega)
      exact ⟨.head hstep hsteps, hempty⟩

theorem measure_initialLoop_le (range : FunctionRange) :
    measure range (initialLoop range) ≤ loopFuel range := by
  rcases Nat.lt_or_ge range.start range.stop with hlt | hle
  · exact measure_initialLoop hlt
  · rw [measure, Finset.Ico_eq_empty_of_le hle, Finset.sum_empty]
    exact Nat.le_add_left 1 _

theorem processed_verifyFunction (program : CompiledProgram) (range : FunctionRange) :
    Processed program range (verifyFunction program range) :=
  processed_loop (ready_initialLoop range) (measure_initialLoop_le range)

/-- **The verifier finds the greatest solution.** In every order the worklist is processed to its
end, as the loop of the source does. Where no inconsistency is reported, the states are the greatest
solution of the flow equations, each the meet of what arrives, and every other order leaves the
same states. -/
theorem verifyFunction_greatest (program : CompiledProgram) (range : FunctionRange) :
    Acc (fun s₂ s₁ ↦ VisitStep program range s₁ s₂) (initialLoop range) ∧
    Processed program range (verifyFunction program range) ∧
    ∀ s, Processed program range s → Consistent s →
      IsGreatest (flowEquations program range) s.states ∧
      (∀ pc st, s.states pc = some st →
        IsMeet {st' | Arrives (flowEquations program range) s.states pc st'} st) ∧
      ∀ s', Processed program range s' → s'.states = s.states := by
  refine ⟨acc_of_ready program (ready_initialLoop range), processed_verifyFunction program range,
    fun s hs hconsistent ↦ ?_⟩
  have hgreatest := hs.isGreatest (.inl hconsistent)
  refine ⟨hgreatest, fun pc st hst ↦ ?_, fun s' hs' ↦ ?_⟩
  · exact isMeet_of_isGLB (hgreatest.solves.reached pc st hst) (hgreatest.solves.meet pc st hst)
  · exact (hs'.isGreatest (.inr ⟨_, hgreatest.solves.covers⟩)).unique hgreatest

/-- A branch that sets a local on one side only. -/
def setsOnOneSide : CompiledProgram where
  instructions := [⟨.loadConst, 1, 0⟩, ⟨.jumpIfFalse, 4, 0⟩, ⟨.loadConst, 1, 0⟩, ⟨.storeLocal, 0, 0⟩,
    ⟨.loadLocal, 0, 0⟩, ⟨.return, 0, 0⟩]
  functions := ⟨[⟨0, "main", 0, 0, 0, 1⟩], by simp⟩
  globals := ∅
  mainFuncId := 0
  constants := []

/-- The range of its only function. -/
def setsOnOneSideRange : FunctionRange := ⟨0, ⟨"main", 0, 0, 0, 1⟩, 0, 6⟩

/-- After the branch the local may be unset. -/
example : (verifyFunction setsOnOneSide setsOnOneSideRange).states 4 = some ⟨0, [false]⟩ := by
  decide +kernel

theorem consistent_setsOnOneSide :
    Consistent (verifyFunction setsOnOneSide setsOnOneSideRange) := by
  have herrors : (verifyFunction setsOnOneSide setsOnOneSideRange).diagnostics.errors = [] := by
    decide +kernel
  rw [Consistent, herrors]
  exact fun _ he ↦ absurd he List.not_mem_nil

theorem verifyFunction_greatest_setsOnOneSide :
    IsGreatest (flowEquations setsOnOneSide setsOnOneSideRange)
      (verifyFunction setsOnOneSide setsOnOneSideRange).states :=
  ((verifyFunction_greatest setsOnOneSide setsOnOneSideRange).2.2 _
    (processed_verifyFunction setsOnOneSide setsOnOneSideRange) consistent_setsOnOneSide).1

end Verifier

end MiniLang
