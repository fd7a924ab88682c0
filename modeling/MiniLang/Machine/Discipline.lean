import MiniLang.Machine.VmFrames
import MiniLang.Machine.VmSafety

/-!
# Operand-stack discipline

The verifier checks each function alone and takes every call for one that leaves a single result.
The machine keeps one stack for all frames, and a return takes one value from it without looking at
what else the frame has left there. The verifier's depths are therefore right along a run exactly
when every return to a caller leaves nothing behind.

## Heights at entry

The depth of a frame is a difference: the height of the stack now, less its height when the frame
was entered. The machine does not keep the second number, so a configuration pairs its state with
the heights at the entries of all frames, and `stepEntries` maintains them from outside: a call
pushes the height after the arguments were popped, a return pops one. The machine's own steps are
what they were.

## Both directions

If every return finds one operand by the verifier's count, the safety argument in its balanced
setting keeps the certificate true of every state, and a completed call, whose frame was entered at
some height, is back at that height with its result (`Tracks.completedCall`). Conversely, in a
disciplined run the state after a return has the depth that the verifier finds there. Since the
machine moved one value whatever the frame had left, the callee's depth must have been one. This is
the only place where the next state is used to learn something about the one before.
-/

namespace MiniLang

open Verifier

namespace Vm

variable {program : CompiledProgram} {maxCycles : Nat} {trace : Option (List TraceEvent)}

/-! ## Heights at entry -/

/-- A state with the heights of the operand stack at the entries of its frames, after the arguments
were popped, innermost frame first. -/
abbrev Config := Vm × List Nat

/-- A step of the machine that keeps track of the heights at entry. -/
def stepEntries (program : CompiledProgram) (c : Config) : Config ⊕ (VmHalt × Vm) :=
  match step program c.1, program.instructions[c.1.pc]? with
  | .inl vm, some instr => .inl (vm, nextEntries instr c.1.stack.length c.2)
  | .inl vm, none => .inl (vm, c.2)
  | .inr r, _ => .inr r

/-- `c` is a state of the loop of `run`. -/
def ReachedConfig (program : CompiledProgram) (maxCycles : Nat) (trace : Option (List TraceEvent))
    (c : Config) : Prop :=
  ∃ vm₀, start program (init maxCycles trace) = .inl vm₀ ∧
    Stepping.Reaches (stepEntries program) (vm₀, [0]) c

/-- The number of operands the current frame has pushed. -/
def operandDepth (c : Config) : Int := c.1.stack.length - c.2.headD 0

/-- The current frame has pushed as many operands as the verifier finds at the program counter. -/
def Disciplined (program : CompiledProgram) (c : Config) : Prop :=
  ∃ frame frames st, c.1.callStack = frame :: frames ∧
    stateAt program frame.funcId c.1.pc = some st ∧ operandDepth c = st.stackDepth

/-- Steps from states with more than `n` frames. -/
inductive Inside (program : CompiledProgram) (n : Nat) : Config → Config → Prop
  | refl (c : Config) : Inside program n c c
  | tail {c c' c'' : Config} : Inside program n c c' → n < c'.1.callStack.length →
    stepEntries program c' = .inl c'' → Inside program n c c''

theorem Inside.reaches {n : Nat} {c c' : Config} (h : Inside program n c c') :
    Stepping.Reaches (stepEntries program) c c' := by
  induction h with
  | refl => exact .refl _
  | tail _ _ hstep ih => exact ih.tail hstep

/-- The call of `callee` that starts at `c` has come back at `c'`. -/
def CompletedCall (program : CompiledProgram) (callee : FunctionInfo) (c c' : Config) : Prop :=
  ∃ instr c₁, program.instructions[c.1.pc]? = some instr ∧ instr.opcode = .call ∧
    program.functions.lookup (asUsize instr.arg1) = some callee ∧ stepEntries program c = .inl c₁ ∧
    Inside program c.1.callStack.length c₁ c' ∧ c'.1.callStack.length = c.1.callStack.length

/-- A return to a caller, executed at `vm`, has a single operand according to the verifier. -/
def ReturnsOne (program : CompiledProgram) (vm : Vm) : Prop :=
  ¬(vm.maxCycles > 0 ∧ vm.cycles ≥ vm.maxCycles) → ∀ frame caller callers instr,
    vm.callStack = frame :: caller :: callers → program.instructions[vm.pc]? = some instr →
    instr.opcode = .return → (stateAt program frame.funcId vm.pc).map AbstractState.stackDepth = some 1

theorem stepEntries_inl {c c' : Config} (h : stepEntries program c = .inl c') :
    ∃ instr, program.instructions[c.1.pc]? = some instr ∧ step program c.1 = .inl c'.1 ∧
      c'.2 = nextEntries instr c.1.stack.length c.2 := by
  rw [stepEntries] at h
  cases hstep : step program c.1 with
  | inr r =>
    rw [hstep] at h
    cases h
  | inl vm =>
    obtain ⟨instr, hinstr, -⟩ := frameStep_of_step hstep
    rw [hstep, hinstr] at h
    obtain rfl := Sum.inl.inj h
    exact ⟨instr, hinstr, rfl, rfl⟩

/-! ## Calls -/

/-- The frame of a call that came from `c`, with frames above it, or back at `c`'s frame. -/
def InCall (c c' : Config) : Prop :=
  (∃ above frame heights height, c'.1.callStack = above ++ frame :: c.1.callStack ∧
    c'.2 = heights ++ height :: c.2 ∧ heights.length = above.length ∧
    frame.returnPc = c.1.pc + 1) ∨
  c'.1.callStack = c.1.callStack ∧ c'.2 = c.2 ∧ c'.1.pc = c.1.pc + 1

theorem InCall.step {c c' c'' : Config} (h : InCall c c') (hpc : c.1.pc + 1 < usizeMax)
    (hframes : c.1.callStack.length < c'.1.callStack.length)
    (hstep : stepEntries program c' = .inl c'') : InCall c c'' := by
  rcases h with ⟨above, frame, heights, height, hcall, hentries, hlen, hret⟩ | ⟨hcall, -⟩
  · obtain ⟨instr, hinstr, hvm, hnext⟩ := stepEntries_inl hstep
    obtain ⟨instr', hinstr', hframe⟩ := frameStep_of_step hvm
    obtain rfl := Option.some_inj.mp (hinstr.symm.trans hinstr')
    rw [hcall] at hframe
    rw [hentries, nextEntries] at hnext
    generalize hframes'' : c''.1.callStack = frames'' at hframe
    generalize hpc'' : c''.1.pc = pc'' at hframe
    generalize hcs : above ++ frame :: c.1.callStack = cs at hframe
    cases hframe with
    | stay hop =>
      refine .inl ⟨above, frame, heights, height, hframes''.trans hcs.symm, ?_, hlen, hret⟩
      rw [hnext]
      split <;> simp_all
    | @call _ base _ hop =>
      rw [hop] at hnext
      subst hcs
      exact .inl ⟨⟨c'.1.pc + 1, base, asUsize instr.arg1⟩ :: above, frame, _ :: heights, height,
        hframes'', hnext, congrArg (· + 1) hlen, hret⟩
    | ret hop hback =>
      rw [hop] at hnext
      cases above with
      | nil =>
        obtain ⟨rfl, rfl⟩ := List.cons_eq_cons.mp hcs
        obtain rfl := List.eq_nil_of_length_eq_zero hlen
        refine .inr ⟨hframes'', hnext, ?_⟩
        rw [hpc'', hback (by omega), hret]
      | cons top above =>
        obtain ⟨rfl, rfl⟩ := List.cons_eq_cons.mp hcs
        cases heights with
        | nil => cases hlen
        | cons _ heights =>
          exact .inl ⟨above, frame, heights, height, hframes'', hnext, Nat.succ_inj.mp hlen, hret⟩
  · rw [hcall] at hframes
    exact absurd hframes (Nat.lt_irrefl _)

/-- A completed call is back in the caller's frame, at the instruction after the call. -/
theorem CompletedCall.back {callee : FunctionInfo} {c c' : Config}
    (h : CompletedCall program callee c c') (hpc : c.1.pc + 1 < usizeMax) :
    c'.1.callStack = c.1.callStack ∧ c'.2 = c.2 ∧ c'.1.pc = c.1.pc + 1 := by
  obtain ⟨instr, c₁, hinstr, hop, -, hstep, hinside, hlen⟩ := h
  have hfirst : InCall c c₁ := by
    obtain ⟨instr', hinstr', hvm, hnext⟩ := stepEntries_inl hstep
    obtain rfl := Option.some_inj.mp (hinstr.symm.trans hinstr')
    obtain ⟨instr', hinstr', hframe⟩ := frameStep_of_step hvm
    obtain rfl := Option.some_inj.mp (hinstr.symm.trans hinstr')
    generalize hframes₁ : c₁.1.callStack = frames₁ at hframe
    generalize hframes : c.1.callStack = frames at hframe
    cases hframe with
    | stay h => simp [hop] at h
    | ret h => simp [hop] at h
    | call =>
      rw [nextEntries, hop] at hnext
      exact .inl ⟨[], _, [], _, hframes ▸ hframes₁, hnext, rfl, rfl⟩
  have hlast : InCall c c' := by
    clear hlen
    induction hinside with
    | refl => exact hfirst
    | tail _ hdeep hstep' ih => exact ih.step hpc hdeep hstep'
  rcases hlast with ⟨above, frame, _, _, hcall, -⟩ | hback
  · rw [hcall, List.length_append, List.length_cons] at hlen
    omega
  · exact hback

/-! ## The invariant -/

/-- The safety argument in which frames return with one operand. -/
def disciplineSetting (program : CompiledProgram) : Setting where
  program := program
  traps := (verify program).possibleTraps
  lenient := True
  balanced := True

/-- The certificate describes the state, with the heights at entry. -/
def Tracks (program : CompiledProgram) (act : Activation) (c : Config) : Prop :=
  SafeIn (disciplineSetting program) act c.1 ∧ c.2 = act.below :: act.entries

variable {act : Activation} {c c' : Config}

theorem Tracks.disciplined (h : Tracks program act c) : Disciplined program c := by
  obtain ⟨⟨st, hat, hvm⟩, hentries⟩ := h
  obtain ⟨range, -, -, -, hst⟩ := hat.certified
  refine ⟨act.frame, act.frames, st, hvm.callStack, hst, ?_⟩
  have hdepth := hvm.depth_eq trivial
  rw [operandDepth, hentries, List.headD_cons, hdepth]
  omega

theorem tracks_start (hvalid : (verify program).valid = true) (hkeys : KeyedById program)
    {vm₀ : Vm} (hstart : start program (init maxCycles trace) = .inl vm₀) :
    ∃ act, Tracks program act (vm₀, [0]) := by
  obtain ⟨vm₁, frame, info, hstart₁, hsafe⟩ :=
    safe_start (S := disciplineSetting program) maxCycles trace (verified_of_valid hvalid) hkeys
  obtain rfl := Sum.inl.inj (hstart.symm.trans hstart₁)
  exact ⟨_, hsafe, rfl⟩

theorem Tracks.step (h : Tracks program act c) (hvalid : (verify program).valid = true)
    (hreturns : ReturnsOne program c.1) (hstep : stepEntries program c = .inl c') :
    ∃ act', Tracks program act' c' := by
  obtain ⟨hsafe, hentries⟩ := h
  have hassumed : Assumed (disciplineSetting program) c.1 := by
    refine ⟨fun _ _ _ ↦ trivial, fun hlenient ↦ absurd trivial hlenient, ?_⟩
    intro _ hlimit act' st hframes hat hvm hop
    obtain ⟨caller, callers, hcallers⟩ := List.exists_cons_of_ne_nil hframes
    obtain ⟨instr, hinstr, hreturn⟩ := Option.map_eq_some_iff.mp hop
    obtain ⟨range, -, -, -, hst⟩ := hat.certified
    have hone := hreturns hlimit act'.frame caller callers instr (hcallers ▸ hvm.callStack) hinstr
      hreturn
    rw [show stateAt program act'.frame.funcId c.1.pc = some st from hst] at hone
    exact Option.some_inj.mp hone
  obtain ⟨instr, hinstr, hvm, hnext⟩ := stepEntries_inl hstep
  obtain ⟨instr', hinstr', hsteps⟩ := stepsSafely (verified_of_valid hvalid) hsafe hassumed
  obtain rfl := Option.some_inj.mp (hinstr.symm.trans hinstr')
  rw [show Vm.step (disciplineSetting program).program c.1 = .inl c'.1 from hvm] at hsteps
  obtain ⟨act', hsafe', hentries'⟩ := hsteps
  exact ⟨act', hsafe', by rw [hnext, hentries, hentries' trivial]⟩

/-- A return to a caller always succeeds, and keeps the height of the stack. -/
theorem Tracks.step_return (h : Tracks program act c) {instr : Instruction}
    (hlimit : ¬(c.1.maxCycles > 0 ∧ c.1.cycles ≥ c.1.maxCycles)) (hframes : act.frames ≠ [])
    (hinstr : program.instructions[c.1.pc]? = some instr) (hop : instr.opcode = .return) :
    ∃ c', stepEntries program c = .inl c' ∧ c'.1.callStack = act.frames ∧ c'.2 = act.entries ∧
      c'.1.pc = act.frame.returnPc ∧ c'.1.stack.length = c.1.stack.length := by
  obtain ⟨vm, heights⟩ := c
  obtain ⟨⟨st, ⟨hlookup, range, hid, hinfo, hcert, hst⟩, hvm⟩, hentries⟩ := h
  obtain ⟨instr', hinstr', -, hdepth, -⟩ := hcert.step _ st hst
  obtain rfl := Option.some_inj.mp (hinstr.symm.trans hinstr')
  obtain ⟨opcode, arg1, arg2⟩ := instr
  obtain rfl : opcode = .return := hop
  have hpos : 1 ≤ st.stackDepth := hdepth
  obtain ⟨d, hd⟩ := Nat.exists_eq_add_of_le' hpos
  rw [hd] at hvm
  obtain ⟨value, stack, hstack, -, hrest⟩ := hvm.exists_cons
  -- there is a caller, so the return position is one of the code
  rcases hrest.suspended.cases_frames with ⟨hnil, -⟩ | ⟨_, _, _, _, _, _, _, _, hpc, -⟩
  · exact absurd hnil hframes
  have hroom : stack.length < maxOperandStack := by
    have hle := hvm.stack_le
    rw [hstack] at hle
    exact hle
  have hrun : (executeInstruction program .return arg1 arg2).run
      { vm with cycles := vm.cycles + 1 } = .ok false { vm with
        cycles := vm.cycles + 1
        stack := value :: stack
        callStack := act.frames
        pc := act.frame.returnPc } :=
    @run_ret { vm with cycles := vm.cycles + 1 } act.frame act.frames value stack hstack hvm.callStack
      hroom hpc
  have hstep : Vm.step program vm = .inl (recordTrace vm { vm with
      cycles := vm.cycles + 1
      stack := value :: stack
      callStack := act.frames
      pc := act.frame.returnPc } ⟨.return, arg1, arg2⟩ .jump) := by
    rw [Vm.step, if_neg hlimit, hinstr]
    simp only [hrun]
    rw [afterInstruction]
    exact if_neg hframes
  refine ⟨_, by rw [stepEntries, hstep, hinstr], rfl, ?_, rfl, ?_⟩
  · rw [nextEntries, hentries]
    rfl
  · exact congrArg List.length hstack.symm

/-- If the next state is disciplined, a return left nothing behind. -/
theorem Tracks.returnsOne (h : Tracks program act c)
    (hnext : ∀ c', stepEntries program c = .inl c' → Disciplined program c') :
    ReturnsOne program c.1 := by
  intro hlimit frame caller callers instr hcall hinstr hop
  have hframes : act.frames = caller :: callers ∧ act.frame = frame := by
    obtain ⟨st, -, hvm⟩ := h.1
    have heq := hvm.callStack.symm.trans hcall
    exact ⟨(List.cons_eq_cons.mp heq).2, (List.cons_eq_cons.mp heq).1⟩
  obtain ⟨hframes, rfl⟩ := hframes
  obtain ⟨c', hstep, hcall', hentries', hpc', hlen⟩ :=
    h.step_return hlimit (hframes ▸ List.cons_ne_nil _ _) hinstr hop
  obtain ⟨⟨st, ⟨-, range, -, -, -, hst⟩, hvm⟩, -⟩ := h
  rcases hvm.suspended.cases_frames with ⟨hnil, -⟩ |
    ⟨caller', callers', below', entries', info', st', heq, hbelow, -, hat, hpos, -, -, -, hsum⟩
  · rw [hnil] at hframes
    cases hframes
  obtain ⟨frame', frames', st'', hcall'', hst'', hdepth⟩ := hnext c' hstep
  obtain ⟨rfl, -⟩ := List.cons_eq_cons.mp ((heq.symm.trans hcall'.symm).trans hcall'')
  obtain ⟨-, -, -, -, hst'⟩ := hat.certified
  rw [hpc'] at hst''
  obtain rfl := Option.some_inj.mp (hst''.symm.trans hst')
  rw [operandDepth, hlen, hentries', hbelow, List.headD_cons, hvm.depth_eq trivial] at hdepth
  rw [show stateAt program act.frame.funcId c.1.pc = some st from hst]
  refine congrArg some ?_
  omega

/-! ## Runs -/

/-- The depths of a run whose returns leave nothing behind are those of the verifier. -/
theorem tracks_of_returnsOne (hvalid : (verify program).valid = true) (hkeys : KeyedById program)
    (hreturns : ∀ c, ReachedConfig program maxCycles trace c → ReturnsOne program c.1)
    (h : ReachedConfig program maxCycles trace c) : ∃ act, Tracks program act c := by
  obtain ⟨vm₀, hstart, hreaches⟩ := h
  induction hreaches with
  | refl => exact tracks_start hvalid hkeys hstart
  | tail hreaches hstep ih =>
    obtain ⟨act, htracks⟩ := ih
    exact htracks.step hvalid (hreturns _ ⟨vm₀, hstart, hreaches⟩) hstep

/-- Conversely, in a disciplined run every return leaves nothing behind. -/
theorem tracks_of_disciplined (hvalid : (verify program).valid = true) (hkeys : KeyedById program)
    (hdisciplined : ∀ c, ReachedConfig program maxCycles trace c → Disciplined program c)
    (h : ReachedConfig program maxCycles trace c) :
    (∃ act, Tracks program act c) ∧ ReturnsOne program c.1 := by
  obtain ⟨vm₀, hstart, hreaches⟩ := h
  have hreturns {act : Activation} {c : Config} (htracks : Tracks program act c)
      (hreaches : Stepping.Reaches (stepEntries program) (vm₀, [0]) c) : ReturnsOne program c.1 :=
    htracks.returnsOne fun _ hstep ↦ hdisciplined _ ⟨vm₀, hstart, hreaches.tail hstep⟩
  suffices htracks : ∃ act, Tracks program act c from
    ⟨htracks, hreturns htracks.choose_spec hreaches⟩
  induction hreaches with
  | refl => exact tracks_start hvalid hkeys hstart
  | tail hreaches hstep ih =>
    obtain ⟨act, htracks⟩ := ih
    exact htracks.step hvalid (hreturns htracks hreaches) hstep

/-- A call between tracked states takes its arguments and leaves its result. -/
theorem Tracks.completedCall {act' : Activation} {callee : FunctionInfo} (h : Tracks program act c)
    (h' : Tracks program act' c') (hvalid : (verify program).valid = true)
    (hcall : CompletedCall program callee c c') :
    operandDepth c' = operandDepth c + 1 - callee.paramCount := by
  obtain ⟨⟨st, ⟨-, range, hid, hinfo, hcert, hst⟩, hvm⟩, hentries⟩ := h
  obtain ⟨⟨st', ⟨-, range', -, -, -, hst'⟩, hvm'⟩, hentries'⟩ := h'
  obtain ⟨instr, hinstr, hops, hdepth, -, hsucc, -⟩ := hcert.step _ st hst
  have hpc : c.1.pc + 1 < usizeMax := by
    have hlt := (List.getElem?_eq_some_iff.mp hinstr).1
    have hcount := (verified_of_valid hvalid).count
    have hlimits : maxInstructions < usizeMax := by decide
    exact Nat.lt_of_le_of_lt hlt (Nat.lt_of_le_of_lt hcount hlimits)
  obtain ⟨hframes, hback, hpc'⟩ := hcall.back hpc
  obtain ⟨instr', c₁, hinstr', hop, hcallee, -⟩ := hcall
  obtain rfl := Option.some_inj.mp (hinstr'.symm.trans hinstr)
  obtain ⟨opcode, arg1, arg2⟩ := instr'
  obtain rfl : opcode = .call := hop
  obtain ⟨-, -, callee', hcallee', hparams⟩ := hops
  obtain rfl := Option.some_inj.mp (hcallee.symm.trans hcallee')
  have hparams : asUsize arg2 = callee.paramCount := hparams
  obtain ⟨st'', hst'', hle⟩ := hsucc (c.1.pc + 1) List.mem_cons_self
  have hframe : act'.frame = act.frame :=
    (List.cons_eq_cons.mp ((hvm'.callStack.symm.trans hframes).trans hvm.callStack)).1
  have hbelow : act'.below = act.below :=
    (List.cons_eq_cons.mp ((hentries'.symm.trans hback).trans hentries)).1
  rw [hframe, hpc'] at hst'
  obtain rfl := Option.some_inj.mp (hst''.symm.trans hst')
  have hdepth' := hle.1
  simp only [after, pops, pushes] at hdepth' hdepth
  rw [operandDepth, operandDepth, hentries', hentries, hvm.depth_eq trivial, hvm'.depth_eq trivial]
  simp only [List.headD_cons]
  omega

/-- **Operand-stack discipline.** In a run of a verified program every state has as many operands
as the verifier finds, and every completed call changes the caller's depth by the difference of its
result and its arguments, if and only if the returns to callers leave nothing behind. -/
theorem disciplined_iff (hkeys : KeyedById program) (hvalid : (verify program).valid = true)
    (maxCycles : Nat) (trace : Option (List TraceEvent)) :
    ((∀ c, ReachedConfig program maxCycles trace c → Disciplined program c) ∧
      ∀ callee c c', ReachedConfig program maxCycles trace c → CompletedCall program callee c c' →
        operandDepth c' = operandDepth c + 1 - callee.paramCount) ↔
    ∀ c, ReachedConfig program maxCycles trace c → ReturnsOne program c.1 := by
  constructor
  · rintro ⟨hdisciplined, -⟩ c hc
    exact (tracks_of_disciplined hvalid hkeys hdisciplined hc).2
  · intro hreturns
    refine ⟨fun c hc ↦ ?_, fun callee c c' hc hcall ↦ ?_⟩
    · obtain ⟨act, htracks⟩ := tracks_of_returnsOne hvalid hkeys hreturns hc
      exact htracks.disciplined
    · obtain ⟨act, htracks⟩ := tracks_of_returnsOne hvalid hkeys hreturns hc
      have hc' : ReachedConfig program maxCycles trace c' := by
        obtain ⟨vm₀, hstart, hreaches⟩ := hc
        obtain ⟨_, _, _, _, _, hstep, hinside, -⟩ := hcall
        exact ⟨vm₀, hstart, hreaches.trans (.head hstep hinside.reaches)⟩
      obtain ⟨act', htracks'⟩ := tracks_of_returnsOne hvalid hkeys hreturns hc'
      exact htracks.completedCall htracks' hvalid hcall

/-- `main` passes an argument to a function that returns with one operand. -/
def returnsSum : CompiledProgram where
  instructions := [⟨.loadConst, 3, 0⟩, ⟨.call, 1, 1⟩, ⟨.return, 0, 0⟩, ⟨.loadLocal, 0, 0⟩,
    ⟨.loadConst, 1, 0⟩, ⟨.add, 0, 0⟩, ⟨.return, 0, 0⟩]
  functions := ⟨[⟨0, "main", 0, 0, 0, 0⟩, ⟨1, "next", 1, 3, 1, 1⟩], by simp⟩
  globals := ∅
  mainFuncId := 0
  constants := []

theorem disciplined_returnsSum :
    (∀ c, ReachedConfig returnsSum 10 none c → Disciplined returnsSum c) ∧
      ∀ callee c c', ReachedConfig returnsSum 10 none c → CompletedCall returnsSum callee c c' →
        operandDepth c' = operandDepth c + 1 - callee.paramCount := by
  have hvalid : (verify returnsSum).valid = true := by
    rw [verify, functionRanges_of_sorted (by decide)]
    decide +kernel
  refine (disciplined_iff (keyedById_of_entries (by decide)) hvalid 10 none).mpr ?_
  rintro c ⟨vm₀, hstart, hreaches⟩ - frame caller callers instr hcall hinstr hop
  obtain rfl := Sum.inl.inj hstart
  -- only `next` has a caller, and its only return is the last instruction
  have hcheck := hreaches.of_checked (show Stepping.checked (stepEntries returnsSum)
    (fun c ↦ c.1.callStack.length < 2 ∨ (returnsSum.instructions[c.1.pc]?).map Instruction.opcode ≠
      some .return ∨ c.1.pc = 6 ∧ (c.1.callStack.head?).map CallFrame.funcId = some 1) 10 _ = true by
    decide +kernel)
  have hone : (stateAt returnsSum 1 6).map AbstractState.stackDepth = some 1 := by
    rw [stateAt, rangeOf, ranges, functionRanges_of_sorted (by decide)]
    decide +kernel
  rcases of_decide_eq_true hcheck with hframes | hreturn | ⟨hpc, hfunc⟩
  · rw [hcall, List.length_cons, List.length_cons] at hframes
    omega
  · rw [hinstr, Option.map_some, hop] at hreturn
    exact absurd rfl hreturn
  · rw [hcall] at hfunc
    rwa [hpc, Option.some_inj.mp hfunc]

/-- `main` calls a function that returns with two operands. -/
def leavesOperand : CompiledProgram where
  instructions := [⟨.call, 1, 0⟩, ⟨.return, 0, 0⟩, ⟨.loadConst, 1, 0⟩, ⟨.loadConst, 2, 0⟩,
    ⟨.return, 0, 0⟩]
  functions := ⟨[⟨0, "main", 0, 0, 0, 0⟩, ⟨1, "two", 1, 2, 0, 0⟩], by simp⟩
  globals := ∅
  mainFuncId := 0
  constants := []

theorem not_disciplined_leavesOperand :
    ¬∀ program, KeyedById program → (verify program).valid = true → ∀ maxCycles trace,
      (∀ c, ReachedConfig program maxCycles trace c → Disciplined program c) ∧
        ∀ callee c c', ReachedConfig program maxCycles trace c →
          CompletedCall program callee c c' →
          operandDepth c' = operandDepth c + 1 - callee.paramCount := by
  intro h
  have hvalid : (verify leavesOperand).valid = true := by
    rw [verify, functionRanges_of_sorted (by decide)]
    decide +kernel
  obtain ⟨hdisciplined, -⟩ :=
    h leavesOperand (keyedById_of_entries (by decide)) hvalid 10 none
  have hreached : ∃ c, ReachedConfig leavesOperand 10 none c ∧ c.1.callStack = [⟨usizeMax, 0, 0⟩] ∧
      c.1.pc = 1 ∧ operandDepth c = 2 := by
    refine ⟨_, ⟨_, rfl, .tail (.tail (.tail (.tail (.refl _) rfl) rfl) rfl) rfl⟩, rfl, rfl, rfl⟩
  obtain ⟨c, hc, hframes, hpc, hdepth⟩ := hreached
  obtain ⟨frame, frames, st, hcall, hst, hst'⟩ := hdisciplined c hc
  obtain ⟨rfl, -⟩ := List.cons_eq_cons.mp (hframes.symm.trans hcall)
  rw [hdepth] at hst'
  have hone : (stateAt leavesOperand 0 1).map AbstractState.stackDepth = some 1 := by
    rw [stateAt, rangeOf, ranges, functionRanges_of_sorted (by decide)]
    decide +kernel
  rw [hpc] at hst
  rw [show stateAt leavesOperand 0 1 = some st from hst] at hone
  obtain h1 := Option.some_inj.mp hone
  omega

end Vm

end MiniLang
