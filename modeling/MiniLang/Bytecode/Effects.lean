import MiniLang.Bytecode.Verifier

/-!
# What the verifier asks of an instruction

`stepInstruction` in three parts: a condition on the operands, the number of values the instruction
takes from the stack, and its effect on the abstract state. The step succeeds exactly when the
condition holds and the stack is deep enough.

## The parts

`OperandsOk` is the condition, `pops` and `pushes` count operands, `after` is the abstract state
behind the instruction, `successors` and `callEdges` are where control may go, and `recordedTraps`
is what the report may add. Each is a function of the opcode that can be read off the source without
its order of checks, and everything that is later said of the verifier is said with these.

## Both directions

`run_stepInstruction` evaluates a step under the condition; `fails_stepInstruction` shows that
without it the step fails, whatever check finds that first. For the second direction `Fails` has a
rule for each check of the source, so that a branch is settled by the first check that applies.
-/

namespace MiniLang

namespace Verifier

variable {program : CompiledProgram} {range : FunctionRange} {pc : Nat} {instr : Instruction}
  {st : AbstractState} {d : Diagnostics}

/-! ## Operands -/

/-- `arg` names a local slot of the function. -/
def IsLocal (range : FunctionRange) (arg : Int32) : Prop :=
  0 ≤ arg ∧ asUsize arg < range.info.localCount

def IsGlobal (arg : Int32) : Prop := 0 ≤ arg ∧ asUsize arg < maxGlobalSlots

def IsTarget (range : FunctionRange) (arg : Int32) : Prop :=
  0 ≤ arg ∧ pcInRange range (asUsize arg) = true

/-- `slot..slot + size` lies within the globals. -/
def IsGlobalArray (slot size : Int32) : Prop :=
  IsGlobal slot ∧ 0 < size ∧ asUsize slot + asUsize size ≤ maxGlobalSlots

/-- A function with identifier `id` takes `argc` arguments. -/
def IsCallee (program : CompiledProgram) (id argc : Int32) : Prop :=
  0 ≤ id ∧ 0 ≤ argc ∧
    ∃ callee, program.functions.lookup (asUsize id) = some callee ∧ asUsize argc = callee.paramCount

/-- The condition on the operands of an instruction. -/
def OperandsOk (program : CompiledProgram) (range : FunctionRange) (instr : Instruction) : Prop :=
  match instr.opcode with
  | .loadLocal | .storeLocal => IsLocal range instr.arg1
  | .loadGlobal | .storeGlobal => IsGlobal instr.arg1
  | .jump | .jumpIfFalse | .jumpIfTrue => IsTarget range instr.arg1
  | .call => IsCallee program instr.arg1 instr.arg2
  | .arrayLoad | .arrayStore => IsGlobalArray instr.arg1 instr.arg2
  | .localArrayLoad | .localArrayStore => 0 < instr.arg2 ∧ IsLocal range instr.arg1
  | .arrayNew | .allocArray => 0 < instr.arg1
  | _ => True

/-! ## Effects -/

/-- The number of values an instruction takes from the stack. -/
def pops (instr : Instruction) : Nat :=
  match instr.opcode with
  | .storeLocal | .storeGlobal | .neg | .not | .jumpIfFalse | .jumpIfTrue | .return | .arrayLoad
  | .localArrayLoad | .print | .pop | .dup => 1
  | .add | .sub | .mul | .div | .eq | .ne | .lt | .gt | .le | .ge | .and | .or | .arrayStore
  | .localArrayStore => 2
  | .call => asUsize instr.arg2
  | _ => 0

/-- The number of values it leaves there instead. -/
def pushes (instr : Instruction) : Nat :=
  match instr.opcode with
  | .storeLocal | .storeGlobal | .jump | .jumpIfFalse | .jumpIfTrue | .return | .arrayStore
  | .localArrayStore | .print | .pop | .halt => 0
  | .dup => 2
  | _ => 1

/-- The abstract state after the instruction. -/
def after (instr : Instruction) (st : AbstractState) : AbstractState where
  stackDepth := st.stackDepth - pops instr + pushes instr
  initializedLocals :=
    if instr.opcode = .storeLocal then st.initializedLocals.set (asUsize instr.arg1) true
    else st.initializedLocals

def successors (pc : Nat) (instr : Instruction) : List Nat :=
  match instr.opcode with
  | .jump => [asUsize instr.arg1]
  | .jumpIfFalse | .jumpIfTrue => [asUsize instr.arg1, pc + 1]
  | .return | .halt => []
  | _ => [pc + 1]

def callEdges (range : FunctionRange) (instr : Instruction) : List (Nat × Nat) :=
  if instr.opcode = .call then [(range.id, asUsize instr.arg1)] else []

/-- The traps recorded for the instruction. -/
def recordedTraps (pc : Nat) (instr : Instruction) (st : AbstractState) : List TrapCode :=
  match instr.opcode with
  | .loadLocal =>
    if st.initializedLocals[asUsize instr.arg1]? = some true then [] else [.undefinedLocal]
  | .localArrayLoad | .localArrayStore =>
    if st.initializedLocals[asUsize instr.arg1]? = some true then [.arrayOutOfBounds]
    else [.undefinedLocal, .arrayOutOfBounds]
  | .arrayLoad | .arrayStore => [.arrayOutOfBounds]
  | .div => [.divideByZero]
  | .jump | .jumpIfFalse | .jumpIfTrue => if asUsize instr.arg1 ≤ pc then [.cycleLimit] else []
  | _ => []

def Diagnostics.addTraps (d : Diagnostics) (traps : List TrapCode) : Diagnostics :=
  { d with possibleTraps := traps.foldl pushTrap d.possibleTraps }

/-! ## Checks -/

section Checks

variable {α : Type} {f : α → CheckM Step} {rawSlot rawSize : Int32} {k : Nat}

theorem run_fail {message : String} : (fail pc message : CheckM α).run d =
    .error () { d with errors := pushError d.errors (some pc) message } := rfl

theorem popStack_eq (pc : Nat) (h : k ≤ st.stackDepth) :
    popStack pc st k = return { st with stackDepth := st.stackDepth - k } := by
  rw [popStack, if_neg (by omega)]

theorem localSlot_eq (h : IsLocal range rawSlot) :
    localSlot range pc rawSlot = return asUsize rawSlot := by
  rw [localSlot, if_neg (by simpa using h.1), if_neg (by simpa using h.2)]

theorem globalSlot_eq (h : IsGlobal rawSlot) : globalSlot pc rawSlot = return asUsize rawSlot := by
  rw [globalSlot, if_neg (by simpa using h.1), if_neg (by simpa using h.2)]

theorem arraySize_eq (h : 0 < rawSize) : arraySize pc rawSize = return asUsize rawSize := by
  rw [arraySize, if_neg (by simpa using h)]

theorem jumpTarget_eq (h : IsTarget range rawSlot) :
    jumpTarget range pc rawSlot = return asUsize rawSlot := by
  rw [jumpTarget, if_neg (by simpa using h.1), if_pos h.2]

theorem globalArrayRange_eq (h : IsGlobalArray rawSlot rawSize) :
    globalArrayRange pc rawSlot rawSize = return (asUsize rawSlot, asUsize rawSize) := by
  have hmax : min (asUsize rawSlot + asUsize rawSize) usizeMax ≤ maxGlobalSlots :=
    Nat.le_trans (Nat.min_le_left _ _) h.2.2
  rw [globalArrayRange, globalSlot_eq h.1, arraySize_eq h.2.1]
  simp only [pure_bind, if_neg (Nat.not_lt.mpr hmax)]

theorem run_checkInitialized (st : AbstractState) (slot : Nat) :
    (checkInitialized st slot).run d = .ok () (d.addTraps
      (if st.initializedLocals[slot]? = some true then [] else [.undefinedLocal])) := by
  rw [checkInitialized]
  split <;> rfl

end Checks

/-- **The spec of a step that succeeds.** -/
theorem run_stepInstruction (hops : OperandsOk program range instr)
    (hdepth : pops instr ≤ st.stackDepth) :
    (stepInstruction program range pc instr st).run d =
      .ok ⟨after instr st, successors pc instr, callEdges range instr⟩
        (d.addTraps (recordedTraps pc instr st)) := by
  obtain ⟨opcode, arg1, arg2⟩ := instr
  cases opcode with
  | loadConst | halt => rfl
  | loadLocal =>
    simp only [stepInstruction, localSlot_eq hops, pure_bind, EStateM.run_bind, run_checkInitialized]
    rfl
  | loadGlobal =>
    simp only [stepInstruction, globalSlot_eq hops, pure_bind]
    rfl
  | storeLocal =>
    have hpop := popStack_eq pc (k := 1) hdepth
    simp only [stepInstruction, localSlot_eq hops, hpop, pure_bind]
    rfl
  | storeGlobal =>
    have hpop := popStack_eq pc (k := 1) hdepth
    simp only [stepInstruction, globalSlot_eq hops, hpop, pure_bind]
    rfl
  | neg | not | print | pop | «return» =>
    have hpop := popStack_eq pc (k := 1) hdepth
    simp only [stepInstruction, hpop, pure_bind]
    rfl
  | add | sub | mul | eq | ne | lt | gt | le | ge | and | or | div =>
    have hpop := popStack_eq pc (k := 2) hdepth
    simp only [stepInstruction, hpop, pure_bind]
    rfl
  | jump =>
    simp only [stepInstruction, jumpTarget_eq hops, pure_bind]
    by_cases htarget : asUsize arg1 ≤ pc <;>
      simp only [recordedTraps, htarget, if_true, if_false] <;> rfl
  | jumpIfFalse | jumpIfTrue =>
    have hpop := popStack_eq pc (k := 1) hdepth
    simp only [stepInstruction, jumpTarget_eq hops, hpop, pure_bind]
    by_cases htarget : asUsize arg1 ≤ pc <;>
      simp only [recordedTraps, htarget, if_true, if_false] <;> rfl
  | call =>
    obtain ⟨hid, hargc, callee, hcallee, hparams⟩ := hops
    have hpop := popStack_eq pc (k := asUsize arg2) hdepth
    simp only [stepInstruction, Int32.not_lt.mpr hid, Int32.not_lt.mpr hargc, hcallee, hparams,
      if_false, ne_eq, not_true_eq_false]
    rw [← hparams, hpop]
    rfl
  | arrayLoad =>
    have hpop := popStack_eq pc (k := 1) hdepth
    simp only [stepInstruction, globalArrayRange_eq hops, hpop, pure_bind]
    rfl
  | arrayStore =>
    have hpop := popStack_eq pc (k := 2) hdepth
    simp only [stepInstruction, globalArrayRange_eq hops, hpop, pure_bind]
    rfl
  | localArrayLoad =>
    have hpop := popStack_eq pc (k := 1) hdepth
    simp only [stepInstruction, arraySize_eq hops.1, localSlot_eq hops.2, hpop, pure_bind,
      EStateM.run_bind, run_checkInitialized]
    by_cases hinit : st.initializedLocals[asUsize arg1]? = some true <;>
      simp only [recordedTraps, hinit, if_true, if_false] <;> rfl
  | localArrayStore =>
    have hpop := popStack_eq pc (k := 2) hdepth
    simp only [stepInstruction, arraySize_eq hops.1, localSlot_eq hops.2, hpop, pure_bind,
      EStateM.run_bind, run_checkInitialized]
    by_cases hinit : st.initializedLocals[asUsize arg1]? = some true <;>
      simp only [recordedTraps, hinit, if_true, if_false] <;> rfl
  | arrayNew | allocArray =>
    simp only [stepInstruction, arraySize_eq hops, pure_bind]
    rfl
  | dup =>
    have hpos : st.stackDepth ≠ 0 := Nat.one_le_iff_ne_zero.mp hdepth
    have hafter : after ⟨.dup, arg1, arg2⟩ st = push st :=
      congrArg (AbstractState.mk · st.initializedLocals) (by simp only [pops, pushes]; omega)
    simp only [stepInstruction, hpos, if_false, hafter]
    rfl

/-! ## Failure -/

/-- The check reports an error and gives up. -/
def Fails {α : Type} (x : CheckM α) : Prop :=
  ∀ d, ∃ d', x.run d = .error () d' ∧ d'.errors ≠ []

namespace Fails

variable {α β : Type} {x : CheckM α} {f : α → CheckM β} {a : α} {message : String}

theorem fail : Fails (Verifier.fail pc message : CheckM α) :=
  fun _ ↦ ⟨_, run_fail, List.append_ne_nil_of_right_ne_nil _ (List.cons_ne_nil _ _)⟩

theorem bind (h : Fails x) : Fails (x >>= f) :=
  fun d ↦ (h d).imp fun _ ⟨hrun, herrors⟩ ↦ ⟨by rw [EStateM.run_bind, hrun], herrors⟩

theorem checkInitialized_bind {f : Unit → CheckM β} {slot : Nat} (h : Fails (f ())) :
    Fails (checkInitialized st slot >>= f) := by
  intro _
  rw [EStateM.run_bind, run_checkInitialized]
  exact h _

theorem popStack_bind {f : AbstractState → CheckM β} {k : Nat}
    (h : k ≤ st.stackDepth → Fails (f { st with stackDepth := st.stackDepth - k })) :
    Fails (popStack pc st k >>= f) := by
  rw [popStack]
  split
  · exact fail.bind
  · next hk =>
    rw [pure_bind]
    exact h (Nat.le_of_not_lt hk)

theorem localSlot {rawSlot : Int32} (h : ¬IsLocal range rawSlot) :
    Fails (localSlot range pc rawSlot) := by
  rw [Verifier.localSlot]
  split
  · exact fail
  split
  · exact fail
  · next hneg hlt => exact absurd ⟨Int32.not_lt.mp hneg, Nat.lt_of_not_le hlt⟩ h

theorem globalSlot {rawSlot : Int32} (h : ¬IsGlobal rawSlot) : Fails (globalSlot pc rawSlot) := by
  rw [Verifier.globalSlot]
  split
  · exact fail
  split
  · exact fail
  · next hneg hlt => exact absurd ⟨Int32.not_lt.mp hneg, Nat.lt_of_not_le hlt⟩ h

theorem arraySize {rawSize : Int32} (h : ¬0 < rawSize) : Fails (arraySize pc rawSize) := by
  rw [Verifier.arraySize, if_pos (Int32.not_lt.mp h)]
  exact fail

theorem jumpTarget {rawTarget : Int32} (h : ¬IsTarget range rawTarget) :
    Fails (jumpTarget range pc rawTarget) := by
  rw [Verifier.jumpTarget]
  split
  · exact fail
  split
  · next hneg hrange => exact absurd ⟨Int32.not_lt.mp hneg, hrange⟩ h
  · exact fail

theorem globalArrayRange {rawSlot rawSize : Int32} (h : ¬IsGlobalArray rawSlot rawSize) :
    Fails (globalArrayRange pc rawSlot rawSize) := by
  by_cases hslot : IsGlobal rawSlot
  · by_cases hsize : 0 < rawSize
    · have hlast : min (asUsize rawSlot + asUsize rawSize) usizeMax > maxGlobalSlots := by
        have hsum : ¬asUsize rawSlot + asUsize rawSize ≤ maxGlobalSlots :=
          fun hle ↦ h ⟨hslot, hsize, hle⟩
        have hlimit : maxGlobalSlots < usizeMax := by decide
        omega
      rw [Verifier.globalArrayRange, globalSlot_eq hslot, arraySize_eq hsize]
      simp only [pure_bind, if_pos hlast]
      exact fail
    · rw [Verifier.globalArrayRange, globalSlot_eq hslot, pure_bind]
      exact (arraySize hsize).bind
  · exact (globalSlot hslot).bind

end Fails

/-- A step whose operands are wrong or whose stack is too low reports an error. -/
theorem fails_stepInstruction (pc : Nat)
    (h : ¬(OperandsOk program range instr ∧ pops instr ≤ st.stackDepth)) :
    Fails (stepInstruction program range pc instr st) := by
  obtain ⟨opcode, arg1, arg2⟩ := instr
  rw [not_and_or] at h
  cases opcode with
  | loadConst | halt => exact absurd trivial (h.resolve_right (not_not_intro (Nat.zero_le _)))
  | loadLocal => exact .bind (.localSlot (h.resolve_right (not_not_intro (Nat.zero_le _))))
  | loadGlobal => exact .bind (.globalSlot (h.resolve_right (not_not_intro (Nat.zero_le _))))
  | storeLocal =>
    exact .popStack_bind fun hpop ↦ .bind (.localSlot (h.resolve_right (not_not_intro hpop)))
  | storeGlobal =>
    exact .popStack_bind fun hpop ↦ .bind (.globalSlot (h.resolve_right (not_not_intro hpop)))
  | neg | not | print | pop | «return» | add | sub | mul | eq | ne | lt | gt | le | ge | and | or
  | div =>
    exact .popStack_bind fun hpop ↦ absurd trivial (h.resolve_right (not_not_intro hpop))
  | jump => exact .bind (.jumpTarget (h.resolve_right (not_not_intro (Nat.zero_le _))))
  | jumpIfFalse | jumpIfTrue =>
    exact .popStack_bind fun hpop ↦ .bind (.jumpTarget (h.resolve_right (not_not_intro hpop)))
  | call => 
    simp only [stepInstruction]
    split
    · exact .fail
    split
    · exact .fail
    split
    · exact .fail
    split
    · exact .fail
    · next hid hargc _ callee hcallee hparams =>
      refine .popStack_bind fun hpop ↦ absurd ?_ (h.resolve_right (not_not_intro hpop))
      exact ⟨Int32.not_lt.mp hid, Int32.not_lt.mp hargc, callee, hcallee, not_not.mp hparams⟩
  | arrayLoad | arrayStore =>
    by_cases hrange : IsGlobalArray arg1 arg2
    · simp only [stepInstruction, globalArrayRange_eq hrange, pure_bind]
      exact .popStack_bind fun hpop ↦ absurd hrange (h.resolve_right (not_not_intro hpop))
    · exact .bind (.globalArrayRange hrange)
  | localArrayLoad | localArrayStore =>
    by_cases hsize : 0 < arg2
    · by_cases hslot : IsLocal range arg1
      · simp only [stepInstruction, arraySize_eq hsize, localSlot_eq hslot, pure_bind]
        refine .checkInitialized_bind (.popStack_bind fun hpop ↦ ?_)
        exact absurd ⟨hsize, hslot⟩ (h.resolve_right (not_not_intro hpop))
      · simp only [stepInstruction, arraySize_eq hsize, pure_bind]
        exact .bind (.localSlot hslot)
    · exact .bind (.arraySize hsize)
  | arrayNew | allocArray =>
    exact .bind (.arraySize (h.resolve_right (not_not_intro (Nat.zero_le _))))
  | dup =>
    have hzero : st.stackDepth = 0 := by
      have := h.resolve_left (not_not_intro trivial)
      simp only [pops] at this
      omega
    simp only [stepInstruction, hzero, if_true]
    exact .fail

end Verifier

end MiniLang
