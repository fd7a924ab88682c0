import MiniLang.Machine.Prediction
import MiniLang.Machine.StraightLine

/-!
# What JIT eligibility promises

A verified program that is eligible for the JIT runs straight through its code up to the first
`Return` and succeeds, exactly when it stores to each parameter of `main` before it loads it. The
verifier takes these parameters for initialised, as those of any function, but nobody passes them.

## From the report to the code

A program is eligible if its report has no possible trap, it has one function, and a scan finds only
supported instructions up to the first `Return`. Hence `main` is straight-line code, and the
verifier has visited each of its instructions with one abstract state and has found the operands
deep enough. What remains is that each instruction has an effect (`exec_ne_none`): the operands are
there, the result fits the stack, and a local that is loaded is set.

## The parameters

A local is unset at the end of a piece of code exactly when no instruction of it stored to the slot
(`unset_run`). For a slot that is no parameter the verifier has excluded a load of an unset local.
For a parameter it has not, and the text of the code decides: `ParametersStored` asks for a store
before each load. It mentions no run and no state, and it is sharp because straight-line code
executes each instruction once, in order.
-/

namespace MiniLang

open Verifier

variable {program : CompiledProgram} {main : FunctionInfo} {body : List Instruction}

/-! ## Unset locals -/

namespace Scalars

variable {localCount slot : Nat} {s s' : Scalars} {instr : Instruction}

/-- The instruction stores to `slot`. -/
def Stores (slot : Nat) (instr : Instruction) : Prop :=
  instr.opcode = .storeLocal ∧ asUsize instr.arg1 = slot

theorem locals_push {value : Int} (h : s.push value = some s') : s'.locals = s.locals := by
  rw [push] at h
  split at h
  · obtain rfl := Option.some_inj.mp h
    rfl
  · cases h

theorem locals_unary {f : Int → Int} (h : s.unary f = some s') : s'.locals = s.locals := by
  rw [unary] at h
  split at h
  · obtain rfl := Option.some_inj.mp h
    rfl
  · cases h

theorem locals_binary {f : Int → Int → Int} (h : s.binary f = some s') :
    s'.locals = s.locals := by
  rw [binary] at h
  split at h
  · obtain rfl := Option.some_inj.mp h
    rfl
  · cases h

/-- Only a store changes the locals. -/
theorem locals_exec (h : s.exec localCount instr = some s') (hop : instr.opcode ≠ .storeLocal) :
    s'.locals = s.locals := by
  obtain ⟨opcode, arg1, arg2⟩ := instr
  cases opcode with
  | storeLocal => exact absurd rfl hop
  | loadConst => exact locals_push h
  | loadLocal =>
    rw [exec] at h
    dsimp only at h
    split at h
    · split at h
      · cases h
      · exact locals_push h
    · cases h
  | add | sub | mul | eq | ne | lt | gt | le | ge => exact locals_binary h
  | neg | not => exact locals_unary h
  | pop =>
    rw [exec] at h
    dsimp only at h
    split at h
    · obtain rfl := Option.some_inj.mp h
      rfl
    · cases h
  | dup =>
    rw [exec] at h
    dsimp only at h
    split at h
    · exact locals_push h
    · cases h
  | _ => cases h

/-- A step leaves a local unset exactly when it does not store to it. -/
theorem unset_exec (hfits : s.Fits) (hslot : slot < maxLocalSlots)
    (h : s.exec localCount instr = some s') :
    s'.locals[slot]? = some i64Min ↔ s.locals[slot]? = some i64Min ∧ ¬Stores slot instr := by
  by_cases hop : instr.opcode = .storeLocal
  · obtain ⟨opcode, arg1, arg2⟩ := instr
    obtain rfl : opcode = .storeLocal := hop
    rw [exec] at h
    dsimp only at h
    split at h
    · next value stack i hstack hi =>
      obtain rfl := Option.some_inj.mp h
      rw [slot?] at hi
      split at hi
      · obtain rfl := Option.some_inj.mp hi
        have hvalue := (hfits.tail hstack).1.ne_i64Min
        have hlt : slot < s.locals.length := hfits.length.symm ▸ hslot
        rw [List.getElem?_set]
        by_cases heq : asUsize arg1 = slot
        · simp [Stores, heq, hlt, hvalue]
        · simp [Stores, heq]
      · cases hi
    · cases h
  · rw [locals_exec h hop]
    simp [Stores, hop]

/-- A local is unset exactly when no instruction stored to it. -/
theorem unset_run {code : List Instruction} (hslot : slot < maxLocalSlots)
    (h : start.run localCount code = some s) :
    s.locals[slot]? = some i64Min ↔ ∀ instr ∈ code, ¬Stores slot instr := by
  induction code using List.reverseRecOn generalizing s with
  | nil =>
    obtain rfl := Option.some_inj.mp h
    simp [start, hslot]
  | append_singleton code instr ih =>
    rw [run_concat] at h
    obtain ⟨s₁, hrun, hexec⟩ := Option.bind_eq_some_iff.mp h
    rw [unset_exec (fits_start.run hrun) hslot hexec, ih hrun, List.forall_mem_append]
    simp

/-- Code with an effect has one at each instruction. -/
theorem exists_exec {code : List Instruction} {i : Nat} (h : s.run localCount code = some s')
    (hi : code[i]? = some instr) :
    ∃ s₁ s₂, s.run localCount (code.take i) = some s₁ ∧ s₁.exec localCount instr = some s₂ := by
  rw [← List.take_append_drop i code, run, List.foldlM_append] at h
  obtain ⟨s₁, htake, hdrop⟩ := Option.bind_eq_some_iff.mp h
  obtain ⟨hlt, rfl⟩ := List.getElem?_eq_some_iff.mp hi
  rw [List.drop_eq_getElem_cons hlt, List.foldlM_cons] at hdrop
  obtain ⟨s₂, hexec, -⟩ := Option.bind_eq_some_iff.mp hdrop
  exact ⟨s₁, s₂, htake, hexec⟩

/-- A load has an effect only on a local that is set. -/
theorem set_of_loadLocal (hop : instr.opcode = .loadLocal)
    (h : s.exec localCount instr = some s') :
    asUsize instr.arg1 < localCount ∧ s.locals[asUsize instr.arg1]? ≠ some i64Min := by
  rw [exec, hop] at h
  dsimp only at h
  split at h
  · next value hvalue =>
    obtain ⟨slot, hslot, hget⟩ := Option.bind_eq_some_iff.mp hvalue
    rw [slot?] at hslot
    split at hslot
    · next hlocal =>
      obtain rfl := Option.some_inj.mp hslot
      split at h
      · cases h
      · next hset => exact ⟨hlocal.2, fun hunset ↦ hset (Option.some_inj.mp (hget.symm.trans hunset))⟩
    · cases hslot
  · cases h

/-- An instruction with good operands that fits the stack and loads no unset local has an effect. -/
theorem exec_ne_none {range : FunctionRange} (hfits : s.Fits)
    (hops : OperandsOk program range instr) (hlocals : range.info.localCount ≤ maxLocalSlots)
    (hdepth : pops instr ≤ s.stack.length)
    (hroom : s.stack.length - pops instr + pushes instr ≤ maxOperandStack)
    (hload : instr.opcode = .loadLocal → s.locals[asUsize instr.arg1]? ≠ some i64Min)
    (hop : jitSupportsOpcode instr.opcode = true) (hreturn : instr.opcode ≠ .return) :
    s.exec range.info.localCount instr ≠ none := by
  obtain ⟨opcode, arg1, arg2⟩ := instr
  have hslot (h : IsLocal range arg1) : slot? range.info.localCount arg1 = some (asUsize arg1) := by
    rw [slot?]
    exact if_pos h
  have hcons (h : 1 ≤ s.stack.length) : ∃ value stack, s.stack = value :: stack :=
    List.exists_cons_of_length_pos h
  cases opcode with
  | «return» => exact absurd rfl hreturn
  | loadConst =>
    rw [exec, push, if_pos (show s.stack.length < maxOperandStack from hroom)]
    exact Option.some_ne_none _
  -- the only instruction that depends on a local being set
  | loadLocal =>
    have hops : IsLocal range arg1 := hops
    have hlt : asUsize arg1 < s.locals.length :=
      hfits.length.symm ▸ Nat.lt_of_lt_of_le hops.2 hlocals
    have hset := hload rfl
    rw [exec]
    dsimp only at hset ⊢
    rw [hslot hops, Option.bind_some, List.getElem?_eq_getElem hlt] at *
    dsimp only
    rw [if_neg fun heq ↦ hset (congrArg some heq), push,
      if_pos (show s.stack.length < maxOperandStack from hroom)]
    exact Option.some_ne_none _
  | storeLocal =>
    obtain ⟨value, stack, hstack⟩ := hcons hdepth
    rw [exec]
    dsimp only
    rw [hstack, hslot hops]
    exact Option.some_ne_none _
  | add | sub | mul | eq | ne | lt | gt | le | ge =>
    obtain ⟨b, stack, hstack⟩ := hcons (Nat.le_of_succ_le hdepth)
    obtain ⟨a, stack, rfl⟩ : ∃ a stack', stack = a :: stack' := by
      rw [hstack] at hdepth
      exact List.exists_cons_of_length_pos (Nat.le_of_succ_le_succ hdepth)
    have hbinary (f : Int → Int → Int) : s.binary f ≠ none := by
      rw [binary, hstack]
      exact Option.some_ne_none _
    exact hbinary _
  | neg | not =>
    obtain ⟨a, stack, hstack⟩ := hcons hdepth
    have hunary (f : Int → Int) : s.unary f ≠ none := by
      rw [unary, hstack]
      exact Option.some_ne_none _
    exact hunary _
  | pop =>
    obtain ⟨value, stack, hstack⟩ := hcons hdepth
    rw [exec]
    dsimp only
    rw [hstack]
    exact Option.some_ne_none _
  -- the only other instruction that needs more room than it frees
  | dup =>
    obtain ⟨value, stack, hstack⟩ := hcons hdepth
    have hlt : s.stack.length < maxOperandStack := by
      have h : s.stack.length - 1 + 2 ≤ maxOperandStack := hroom
      omega
    rw [exec]
    dsimp only
    rw [hstack]
    dsimp only
    rw [push, if_pos hlt]
    exact Option.some_ne_none _
  | _ => cases hop

end Scalars

/-! ## Eligible programs -/

namespace Vm

variable {trace : Option (List TraceEvent)} {vm : Vm}

/-- Every load of a parameter of `main` before its first `Return` follows a store to it. -/
def ParametersStored (program : CompiledProgram) : Prop :=
  ∀ main, program.functions.lookup program.mainFuncId = some main → ∀ i instr,
    program.instructions[main.entryPc + i]? = some instr →
    (∀ j < i, ∀ instr', program.instructions[main.entryPc + j]? = some instr' →
      instr'.opcode ≠ .return) →
    instr.opcode = .loadLocal → asUsize instr.arg1 < main.paramCount →
    ∃ j < i, ∃ instr', program.instructions[main.entryPc + j]? = some instr' ∧
      Scalars.Stores (asUsize instr.arg1) instr'

/-- A run with the default limit succeeds without a trap, prints nothing and makes no call; it
starts at the entry of `main`, executes one instruction after the other and stops at the first
`Return`. -/
structure RunsStraight (program : CompiledProgram) (trace : Option (List TraceEvent)) : Prop where
  succeeds : ∃ fuel result vm,
    runFull program fuel (init MiniLang.maxCycles trace) = some (.result result, vm) ∧
    result.success = true ∧ result.trapCode = .none ∧ result.output = []
  entry : ∀ main vm, program.functions.lookup program.mainFuncId = some main →
    Vm.start program (init MiniLang.maxCycles trace) = .inl vm → vm.pc = main.entryPc
  noCall : ∀ vm, Reached program MiniLang.maxCycles trace vm → ∃ instr,
    program.instructions[vm.pc]? = some instr ∧ instr.opcode ≠ .call ∧
    (instr.opcode = .return ↔ ∃ r, step program vm = .inr r)
  next : ∀ vm vm', Reached program MiniLang.maxCycles trace vm →
    step program vm = .inl vm' → vm'.pc = vm.pc + 1

/-- What the verifier has checked of an eligible program. -/
theorem of_eligible (hjit : (verify program).backendEligibility.jit.eligible = true) :
    (verify program).valid = true ∧ (verify program).possibleTraps = [] ∧
      program.functions.entries.length = 1 ∧
      ∃ main, program.functions.lookup program.mainFuncId = some main ∧
        (jitScan (program.instructions.drop main.entryPc)).eligible = true := by
  have hjit : (backendEligibility program (verify program).valid
      (verify program).possibleTraps).jit.eligible = true := hjit
  rw [backendEligibility] at hjit
  split at hjit
  · next hvalid =>
    dsimp only at hjit
    rw [jitStatus] at hjit
    split at hjit
    · cases hjit
    next htraps =>
    split at hjit
    · cases hjit
    next hsingle =>
    split at hjit
    · cases hjit
    next main hmain => exact ⟨hvalid, of_not_not htraps, of_not_not hsingle, main, hmain, hjit⟩
  · cases hjit

/-- An eligible program reports no trap and has a straight-line `main`. -/
theorem straight_of_eligible (hkeys : KeyedById program)
    (hjit : (verify program).backendEligibility.jit.eligible = true) :
    (verify program).possibleTraps = [] ∧ ∃ main body, Straight program main body := by
  obtain ⟨-, htraps, -, main, hmain, hscan⟩ := of_eligible hjit
  obtain ⟨body, ret, rest, hcode, hret, hbody⟩ := exists_of_jitScan hscan
  exact ⟨htraps, main, body, hmain, hkeys _ _ hmain, ⟨ret, rest, hcode, hret⟩, hbody⟩

theorem setup_of_verified {traps : List TrapCode} (hverified : Verified program traps)
    (h : Straight program main body) : Setup program main body MiniLang.maxCycles where
  toStraight := h
  localCount_le := (hverified.slots _ _ h.lookup).2
  cycles := by
    obtain ⟨ret, hret, -⟩ := h.exists_return
    have hlt := (List.getElem?_eq_some_iff.mp hret).1
    have hcount := hverified.count
    have hlimits : maxInstructions < MiniLang.maxCycles := by decide
    exact .inr (by omega)

/-- No `Return` comes before the end of the body. -/
theorem not_return_of_lt (h : Straight program main body) {i j : Nat} (hi : i ≤ body.length)
    (hj : j < i) {instr : Instruction}
    (hinstr : program.instructions[main.entryPc + j]? = some instr) : instr.opcode ≠ .return := by
  have hget : body[j]? = some body[j] := List.getElem?_eq_getElem (by omega)
  obtain rfl := Option.some_inj.mp ((h.getElem? hget).symm.trans hinstr)
  exact (h.supported _ (List.getElem_mem _)).2

/-- A parameter that is loaded has been stored to. -/
theorem set_of_stored (h : Straight program main body) (hstored : ParametersStored program)
    {i : Nat} {s : Scalars} {instr : Instruction}
    (hrun : Scalars.start.run main.localCount (body.take i) = some s) (hi : body[i]? = some instr)
    (hop : instr.opcode = .loadLocal) (hparam : asUsize instr.arg1 < main.paramCount)
    (hslot : asUsize instr.arg1 < maxLocalSlots) :
    s.locals[asUsize instr.arg1]? ≠ some i64Min := by
  intro hunset
  have hlt := (List.getElem?_eq_some_iff.mp hi).1
  obtain ⟨j, hj, instr', hinstr', hstores⟩ := hstored main h.lookup i instr (h.getElem? hi)
    (fun j hj _ hinstr' ↦ not_return_of_lt h hlt.le hj hinstr') hop hparam
  refine (Scalars.unset_run hslot hrun).mp hunset instr' ?_ hstores
  have hget : body[j]? = some body[j] := List.getElem?_eq_getElem (by omega)
  obtain rfl := Option.some_inj.mp ((h.getElem? hget).symm.trans hinstr')
  refine List.mem_of_getElem? (i := j) ?_
  rw [List.getElem?_take, if_pos hj, hget]

/-- The safety argument for straight-line code: frames never return to one another. -/
def straightSetting (program : CompiledProgram) : Setting where
  program := program
  traps := (verify program).possibleTraps
  lenient := False
  balanced := True

/-- The instruction about to be executed. -/
theorem instr_of_scalarAt (h : Straight program main body) {i : Nat} {s : Scalars}
    {maxCycles : Nat} (hvm : ScalarAt program main maxCycles i s vm) (hi : i ≤ body.length) :
    (∃ instr, body[i]? = some instr ∧ program.instructions[vm.pc]? = some instr ∧
      jitSupportsOpcode instr.opcode = true ∧ instr.opcode ≠ .return) ∨
    i = body.length ∧ ∃ instr, program.instructions[vm.pc]? = some instr ∧
      instr.opcode = .return := by
  rw [hvm.pc_eq]
  rcases Nat.lt_or_eq_of_le hi with hlt | rfl
  · have hget : body[i]? = some body[i] := List.getElem?_eq_getElem hlt
    exact .inl ⟨_, hget, h.getElem? hget, h.supported _ (List.getElem_mem _)⟩
  · exact .inr ⟨rfl, h.exists_return⟩

theorem assumed_of_stored {traps : List TrapCode} (hverified : Verified program traps)
    (h : Straight program main body) (hstored : ParametersStored program)
    (hreached : Reached program MiniLang.maxCycles trace vm) :
    Assumed (straightSetting program) vm := by
  obtain ⟨i, s, hi, hrun, hvm⟩ :=
    run_of_reached (setup_of_verified hverified h) (validate_of_verified hverified) hreached
  have hinstr := instr_of_scalarAt h hvm hi
  have hop {instr : Instruction} (hget : program.instructions[vm.pc]? = some instr) :
      instr.opcode ≠ .localArrayLoad ∧ instr.opcode ≠ .localArrayStore := by
    rcases hinstr with ⟨instr', -, hget', hop, -⟩ | ⟨-, instr', hget', hop⟩
    · obtain rfl := Option.some_inj.mp (hget.symm.trans hget')
      constructor <;> intro heq <;> rw [heq] at hop <;> cases hop
    · obtain rfl := Option.some_inj.mp (hget.symm.trans hget')
      constructor <;> intro heq <;> rw [heq] at hop <;> cases hop
  constructor
  · exact fun instr hget hload ↦ absurd hload (hop hget).1
  · rintro - - ⟨-, frame, info, instr, hstack, hinfo, hget, hparam, hcell, hread⟩
    have hread := hread.resolve_right fun hread ↦ (hop hget).2 hread.1
    obtain ⟨rfl, -⟩ := List.cons_eq_cons.mp (hstack.symm.trans hvm.callStack_eq)
    obtain rfl := Option.some_inj.mp (hinfo.symm.trans h.lookup)
    rcases hinstr with ⟨instr', hi', hget', -⟩ | ⟨-, instr', hget', hreturn⟩
    · obtain rfl := Option.some_inj.mp (hget.symm.trans hget')
      have hslots := hverified.slots _ _ hinfo
      refine set_of_stored h hstored hrun hi' hread hparam
        (Nat.lt_of_lt_of_le hparam (hslots.1.trans hslots.2)) ?_
      rw [← hvm.scalars_eq]
      rwa [Nat.zero_add] at hcell
    · obtain rfl := Option.some_inj.mp (hget.symm.trans hget')
      rw [hread] at hreturn
      cases hreturn
  · intro _ _ act st hframes _ hwithin
    obtain ⟨-, hnil⟩ := List.cons_eq_cons.mp (hwithin.callStack.symm.trans hvm.callStack_eq)
    exact absurd hnil hframes

theorem Suspended.below_eq_zero {S : Setting} {locals : List Int} {pc base below : Nat}
    {entries : List Nat} (h : Suspended S locals [] pc base below entries) : below = 0 := by
  cases h
  rfl

/-- The operands of the instruction about to be executed are what the verifier says. -/
theorem exists_certified (hverified : Verified program (verify program).possibleTraps)
    (hkeys : KeyedById program) (h : Straight program main body)
    (hstored : ParametersStored program) {i : Nat} {s : Scalars} {maxCycles : Nat}
    (hreached : Reached program MiniLang.maxCycles trace vm)
    (hvm : ScalarAt program main maxCycles i s vm) :
    ∃ range st instr, range.info = main ∧ program.instructions[vm.pc]? = some instr ∧
      OperandsOk program range instr ∧ pops instr ≤ s.stack.length ∧
      s.stack.length - pops instr + pushes instr ≤ maxOperandStack ∧
      (∀ trap ∈ recordedTraps vm.pc instr st, trap ∈ (verify program).possibleTraps) ∧
      ∀ slot < main.localCount, st.initializedLocals[slot]? = some true →
        s.locals[slot]? = some i64Min → slot < main.paramCount := by
  obtain ⟨act, st, ⟨hlookup, range, -, hrange, hcert, hst⟩, hwithin⟩ :=
    safe_reached (S := straightSetting program) hverified hkeys
      (fun vm hreached ↦ assumed_of_stored hverified h hstored hreached) hreached
  obtain ⟨hframe, hframes⟩ := List.cons_eq_cons.mp (hwithin.callStack.symm.trans hvm.callStack_eq)
  rw [hframe] at hlookup
  have hinfo : act.info = main := Option.some_inj.mp (hlookup.symm.trans h.lookup)
  obtain ⟨instr, hinstr, hops, hpops, htraps, -, hroom, -⟩ := hcert.step _ st hst
  have hsuspended := hwithin.suspended
  rw [hframes] at hsuspended
  have hdepth : s.stack.length = st.stackDepth := by
    have hdepth := hwithin.depth_eq trivial
    rw [hsuspended.below_eq_zero, Nat.zero_add] at hdepth
    rw [← hvm.scalars_eq]
    exact hdepth
  refine ⟨range, st, instr, hrange.trans hinfo, hinstr, hops, hdepth ▸ hpops, hdepth ▸ hroom,
    htraps, fun slot hslot hinit hcell ↦ ?_⟩
  have hexempt := hwithin.initialised id slot (hinfo.symm ▸ hslot) hinit
  rw [hframe, hframes, Nat.zero_add, exempt, hinfo] at hexempt
  refine hexempt ?_
  rw [← hvm.scalars_eq] at hcell
  exact hcell

/-- Code that stores to its parameters first has an effect. -/
theorem exists_run_of_stored (hverified : Verified program (verify program).possibleTraps)
    (htraps : (verify program).possibleTraps = []) (hkeys : KeyedById program)
    (h : Straight program main body) (hstored : ParametersStored program) :
    ∃ value stack locals,
      Scalars.start.run main.localCount body = some ⟨value :: stack, locals⟩ := by
  have hsetup := setup_of_verified hverified h
  have hvalidate := validate_of_verified hverified
  -- the scalar run gets past every instruction, by induction on their number
  have hprefix (i : Nat) (hi : i ≤ body.length) :
      ∃ s, Scalars.start.run main.localCount (body.take i) = some s := by
    induction i with
    | zero => exact ⟨_, rfl⟩
    | succ i ih =>
      obtain ⟨s, hrun⟩ := ih (Nat.le_of_succ_le hi)
      obtain ⟨vm, hreached, hvm⟩ := reached_of_run hsetup hvalidate none (Nat.le_of_succ_le hi) hrun
      obtain ⟨range, st, instr, hrange, hinstr, hops, hpops, hroom, hrecorded, hinit⟩ :=
        exists_certified hverified hkeys h hstored hreached hvm
      have hget : body[i]? = some body[i] := List.getElem?_eq_getElem hi
      rw [hvm.pc_eq] at hinstr
      obtain rfl := Option.some_inj.mp (hinstr.symm.trans (h.getElem? hget))
      obtain ⟨hop, hreturn⟩ := h.supported _ (List.getElem_mem hi)
      -- a load finds a value: else the report would list the trap, or a parameter was not stored
      have hload : body[i].opcode = .loadLocal →
          s.locals[asUsize body[i].arg1]? ≠ some i64Min := by
        intro hop hunset
        rw [OperandsOk, hop] at hops
        have hslot : asUsize body[i].arg1 < main.localCount := hrange ▸ hops.2
        have hset : st.initializedLocals[asUsize body[i].arg1]? = some true := by
          by_contra hset
          rw [recordedTraps, hop] at hrecorded
          have hlisted := hrecorded .undefinedLocal (by
            dsimp only
            rw [if_neg hset]
            exact List.mem_cons_self)
          rw [htraps] at hlisted
          cases hlisted
        exact set_of_stored h hstored hrun hget hop (hinit _ hslot hset hunset)
          (Nat.lt_of_lt_of_le hslot hsetup.localCount_le) hunset
      have hexec := Scalars.exec_ne_none (Scalars.fits_start.run hrun) hops
        (hrange ▸ hsetup.localCount_le) hpops hroom hload hop hreturn
      rw [hrange] at hexec
      obtain ⟨s', hexec⟩ := Option.ne_none_iff_exists'.mp hexec
      refine ⟨s', ?_⟩
      rw [List.take_add_one, hget, Option.toList_some, Scalars.run_concat, hrun]
      exact hexec
  -- at the return the certificate has an operand
  obtain ⟨s, hrun⟩ := hprefix body.length le_rfl
  obtain ⟨vm, hreached, hvm⟩ := reached_of_run hsetup hvalidate none le_rfl hrun
  obtain ⟨range, st, instr, -, hinstr, -, hpops, -⟩ :=
    exists_certified hverified hkeys h hstored hreached hvm
  obtain ⟨ret, hret, hop⟩ := h.exists_return
  rw [hvm.pc_eq] at hinstr
  obtain rfl := Option.some_inj.mp (hinstr.symm.trans hret)
  rw [pops, hop] at hpops
  obtain ⟨stack, locals⟩ := s
  obtain ⟨value, stack, rfl⟩ := List.exists_cons_of_length_pos hpops
  rw [List.take_length] at hrun
  exact ⟨value, stack, locals, hrun⟩

/-- What is executed when the code has an effect. -/
theorem runsStraight_of_run {main : FunctionInfo} {body : List Instruction}
    (hsetup : Setup program main body MiniLang.maxCycles) (hvalidate : program.validate = .ok ())
    {value : Int} {stack locals : List Int}
    (hrun : Scalars.start.run main.localCount body = some ⟨value :: stack, locals⟩) :
    RunsStraight program trace := by
  -- every state reached is that of the scalar run at some instruction, which does not fail there
  have hsteps {vm : Vm} (hreached : Reached program MiniLang.maxCycles trace vm) :
      (∃ instr vm', program.instructions[vm.pc]? = some instr ∧
        jitSupportsOpcode instr.opcode = true ∧ instr.opcode ≠ .return ∧
        step program vm = .inl vm' ∧ vm'.pc = vm.pc + 1) ∨
      ∃ instr r, program.instructions[vm.pc]? = some instr ∧ instr.opcode = .return ∧
        step program vm = .inr r := by
    obtain ⟨i, s, hi, htake, hvm⟩ := run_of_reached hsetup hvalidate hreached
    have hfits := Scalars.fits_start.run htake
    rcases instr_of_scalarAt hsetup.toStraight hvm hi with
      ⟨instr, hget, hinstr, hop, hreturn⟩ | ⟨rfl, instr, hinstr, hreturn⟩
    · have hnext := stepsTo hsetup hvm hfits hget
      cases hexec : s.exec main.localCount instr with
      | some s' =>
        rw [hexec] at hnext
        obtain ⟨vm', hstep, hvm'⟩ := hnext
        exact .inl ⟨instr, vm', hinstr, hop, hreturn, hstep, by
          rw [hvm'.pc_eq, hvm.pc_eq, Nat.add_assoc]⟩
      | none =>
        obtain ⟨s₁, s₂, htake', hexec'⟩ := Scalars.exists_exec hrun hget
        obtain rfl := Option.some_inj.mp (htake.symm.trans htake')
        rw [hexec] at hexec'
        cases hexec'
    · obtain ⟨result, vm', hstep, -⟩ := step_return hsetup hvm hfits
      exact .inr ⟨instr, _, hinstr, hreturn, hstep⟩
  constructor
  · obtain ⟨fuel, result, vm, hfull, hend⟩ := runFull_straight hsetup hvalidate trace
    rw [hrun] at hend
    exact ⟨fuel, result, vm, hfull, hend.1, hend.2.1, hend.2.2.2⟩
  · intro main' vm hmain hstart
    obtain ⟨vm₀, hstart₀, hvm₀⟩ := scalarAt_start hsetup hvalidate trace
    obtain rfl := Sum.inl.inj (hstart.symm.trans hstart₀)
    obtain rfl := Option.some_inj.mp (hmain.symm.trans hsetup.lookup)
    exact hvm₀.pc_eq
  · intro vm hreached
    rcases hsteps hreached with
      ⟨instr, vm', hinstr, hop, hreturn, hstep, -⟩ | ⟨instr, r, hinstr, hreturn, hstep⟩
    · refine ⟨instr, hinstr, fun hcall ↦ ?_, fun h ↦ absurd h hreturn, fun ⟨r, h⟩ ↦ ?_⟩
      · rw [hcall] at hop
        cases hop
      · rw [hstep] at h
        cases h
    · refine ⟨instr, hinstr, fun hcall ↦ ?_, fun _ ↦ ⟨r, hstep⟩, fun _ ↦ hreturn⟩
      rw [hreturn] at hcall
      cases hcall
  · intro vm vm' hreached hnext
    rcases hsteps hreached with ⟨_, vm'', _, _, _, hstep, hpc⟩ | ⟨_, r, _, _, hstep⟩
    · obtain rfl := Sum.inl.inj (hnext.symm.trans hstep)
      exact hpc
    · rw [hnext] at hstep
      cases hstep

/-- **Exactness of eligibility.** A valid program that is eligible for the JIT runs straight through
its code if and only if it stores to each parameter of `main` before it loads it. -/
theorem runsStraight_iff (hkeys : KeyedById program) (hvalid : (verify program).valid = true)
    (hjit : (verify program).backendEligibility.jit.eligible = true)
    (trace : Option (List TraceEvent)) : RunsStraight program trace ↔ ParametersStored program := by
  have hverified := verified_of_valid hvalid
  have hvalidate := validate_of_verified hverified
  obtain ⟨htraps, main, body, h⟩ := straight_of_eligible hkeys hjit
  have hsetup := setup_of_verified hverified h
  constructor
  · rintro ⟨⟨fuel, result, vm, hrun, hsuccess, -⟩, -, -, -⟩ main' hmain i instr hinstr hbefore hop
      hparam
    obtain rfl := Option.some_inj.mp (h.lookup.symm.trans hmain)
    -- a run that succeeds has executed the whole body
    obtain ⟨fuel', result', vm', hrun', hend⟩ := runFull_straight hsetup hvalidate trace
    obtain ⟨hresult, -⟩ := Prod.mk.inj (runFull_unique hrun hrun')
    obtain rfl := VmHalt.result.inj hresult
    obtain ⟨s, hbody⟩ : ∃ s, Scalars.start.run main.localCount body = some s := by
      cases hbody : Scalars.start.run main.localCount body with
      | some s => exact ⟨s, rfl⟩
      | none =>
        rw [hbody] at hend
        rw [show result.success = false from hend] at hsuccess
        cases hsuccess
    have hi : i < body.length := by
      obtain ⟨ret, hret, hreturn⟩ := h.exists_return
      by_contra hle
      rcases Nat.lt_or_eq_of_le (Nat.le_of_not_lt hle) with hlt | rfl
      · exact hbefore _ hlt _ hret hreturn
      · obtain rfl := Option.some_inj.mp (hinstr.symm.trans hret)
        rw [hop] at hreturn
        cases hreturn
    have hget : body[i]? = some body[i] := List.getElem?_eq_getElem hi
    obtain rfl := Option.some_inj.mp ((h.getElem? hget).symm.trans hinstr)
    obtain ⟨s₁, s₂, htake, hexec⟩ := Scalars.exists_exec hbody hget
    obtain ⟨hslot, hset⟩ := Scalars.set_of_loadLocal hop hexec
    have hstores := mt (Scalars.unset_run (Nat.lt_of_lt_of_le hslot hsetup.localCount_le) htake).mpr
      hset
    push Not at hstores
    obtain ⟨instr', hmem, hstores⟩ := hstores
    obtain ⟨j, hj⟩ := List.mem_iff_getElem?.mp hmem
    rw [List.getElem?_take] at hj
    split at hj
    · next hlt => exact ⟨j, hlt, instr', h.getElem? hj, hstores⟩
    · cases hj
  · intro hstored
    obtain ⟨value, stack, locals, hrun⟩ :=
      exists_run_of_stored hverified htraps hkeys h hstored
    exact runsStraight_of_run hsetup hvalidate hrun

/-- The only load of a parameter comes after the store to it. -/
theorem runsStraight_setsParameter : RunsStraight setsParameter none := by
  refine (runsStraight_iff keyed_setsParameter valid_setsParameter (by decide +kernel) none).mpr
    fun main hmain i instr hinstr _ hop _ ↦ ?_
  obtain rfl : main = ⟨"main", 0, 0, 1, 1⟩ := (Option.some_inj.mp hmain).symm
  obtain rfl : i = 2 := by
    have hloads : ∀ i < 4, (setsParameter.instructions[i]?).map Instruction.opcode =
        some .loadLocal → i = 2 := by decide
    rw [Nat.zero_add] at hinstr
    refine hloads i (List.getElem?_eq_some_iff.mp hinstr).1 ?_
    rw [hinstr, Option.map_some, hop]
  cases hinstr
  exact ⟨1, by decide, _, rfl, rfl, rfl⟩

theorem eligible_loadsParameter :
    (verify loadsParameter).backendEligibility.jit.eligible = true := by decide +kernel

theorem not_runsStraight_loadsParameter :
    ¬∀ program, KeyedById program → (verify program).valid = true →
      (verify program).backendEligibility.jit.eligible = true → ∀ trace, RunsStraight program trace := by
  intro h
  obtain ⟨⟨fuel, result, vm, hrun, hsuccess, -⟩, -⟩ :=
    h loadsParameter keyed_loadsParameter valid_loadsParameter eligible_loadsParameter none
  have htrap : ∃ result vm, runFull loadsParameter 1 (init MiniLang.maxCycles none) =
      some (.result result, vm) ∧ result.success = false := ⟨_, _, rfl, rfl⟩
  obtain ⟨result', vm', hrun', hfail⟩ := htrap
  obtain ⟨hresult, -⟩ := Prod.mk.inj (runFull_unique hrun hrun')
  obtain rfl := VmHalt.result.inj hresult
  rw [hfail] at hsuccess
  cases hsuccess

end Vm

end MiniLang
