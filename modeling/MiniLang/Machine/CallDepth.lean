import MiniLang.Bytecode.CallGraph
import MiniLang.Machine.VmSafety
import MiniLang.Machine.VmFrames

/-!
# The active frames are a chain of calls

Control stays in the code the verifier reaches, so the functions of the active frames call each
other in its call graph, from `main` to the one that is running. The frame depth of the report is
therefore the number of functions on a longest chain of calls, and no run gets deeper.

## The invariant

`Active` goes through the frames from the innermost one. Each frame waits in code of its function
that the verifier has reached, at the instruction after a call of the function above it, hence there
is an edge in the call graph for each pair of neighbours. One step keeps this: an instruction other
than a call or a return leads to a successor in the same function, which the verifier has followed
as well; a call adds an edge at the top; a return takes the innermost function off, and the one
below goes on where it waited.

The operands play no part. Nothing here depends on the depths that the verifier computes, and so the
bound also holds in runs that do not keep to them.

## The report

The verifier computes the depth by a search that fails on a cycle below `main`. That it returns the
longest chain is a fact about its call graph; with the invariant the chain bounds the frames of
every state that a run reaches.
-/

namespace MiniLang

namespace Vm

open Verifier

variable {program : CompiledProgram} {vm vm' : Vm} {instr : Instruction}

/-! ## Where control goes -/

/-- `x` asks for the next instruction whenever it ends. -/
def Falls (x : VmM Bool) : Prop :=
  ∀ vm, (x.run vm).Post (fun advance _ ↦ advance = true) fun _ _ ↦ True

namespace Falls

variable {α : Type}

theorem bind {x : VmM α} {f : α → VmM Bool} (hf : ∀ a, Falls (f a)) : Falls (x >>= f) := by
  intro vm
  rw [EStateM.run_bind]
  cases x.run vm with
  | ok a vm' => exact hf a vm'
  | error e vm' => trivial

theorem pure : Falls (Pure.pure true) := fun _ ↦ rfl

theorem trap (code : TrapCode) (message : String) : Falls (Vm.trap code message) := fun _ ↦ trivial

theorem throw (e : Stop) : Falls (MonadExcept.throw e) := fun _ ↦ trivial

/-- The instructions that do not transfer control. -/
theorem executeInstruction {opcode : Opcode} (arg1 arg2 : Int32)
    (h : opcode ∉ [.jump, .jumpIfFalse, .jumpIfTrue, .call, .return, .halt]) :
    Falls (executeInstruction program opcode arg1 arg2) := by
  cases opcode with
  | jump | jumpIfFalse | jumpIfTrue | call | «return» | halt => simp at h
  | loadLocal =>
    refine bind fun slot ↦ bind fun value ↦ ?_
    split
    · exact trap _ _
    · exact bind fun _ ↦ pure
  | div =>
    refine bind fun b ↦ bind fun a ↦ ?_
    split
    · exact trap _ _
    split
    · exact throw _
    · exact bind fun _ ↦ pure
  | neg =>
    refine bind fun a ↦ ?_
    split
    · exact throw _
    · exact bind fun _ ↦ pure
  | dup =>
    refine bind fun vm ↦ ?_
    split
    · exact trap _ _
    · exact bind fun _ ↦ pure
  | loadConst | pop => exact bind fun _ ↦ pure
  | not | print => exact bind fun _ ↦ bind fun _ ↦ pure
  | add | sub | mul | eq | ne | lt | gt | le | ge | and | or | storeLocal | loadGlobal
  | storeGlobal => exact bind fun _ ↦ bind fun _ ↦ bind fun _ ↦ pure
  | arrayNew | allocArray => exact bind fun _ ↦ bind fun _ ↦ bind fun _ ↦ bind fun _ ↦ pure
  | arrayLoad | arrayStore =>
    exact bind fun _ ↦ bind fun _ ↦ bind fun _ ↦ bind fun _ ↦ bind fun _ ↦ pure
  | localArrayLoad | localArrayStore =>
    exact bind fun _ ↦ bind fun _ ↦ bind fun _ ↦ bind fun _ ↦ bind fun _ ↦ bind fun _ ↦
      bind fun _ ↦ pure

end Falls

/-- Where control is when the loop goes on after an instruction. -/
def target (advance : Bool) (vm : Vm) : Nat := if advance then vm.pc + 1 else vm.pc

/-- Outside calls and returns control goes to a successor that the verifier follows. -/
theorem post_target (program : CompiledProgram) (vm : Vm)
    (h : instr.opcode ∉ [.call, .return, .halt]) :
    ((executeInstruction program instr.opcode instr.arg1 instr.arg2).run vm).Post
      (fun advance vm' ↦ target advance vm' ∈ successors vm.pc instr) fun _ _ ↦ True := by
  obtain ⟨opcode, arg1, arg2⟩ := instr
  by_cases hop : opcode ∉ [.jump, .jumpIfFalse, .jumpIfTrue, .call, .return, .halt]
  · have hfalls := @Falls.executeInstruction program _ arg1 arg2 hop vm
    have hpc := @Leaves.executeInstruction program _ Vm.pc
      ⟨fun _ _ ↦ rfl, fun _ _ ↦ rfl, fun _ _ ↦ rfl, fun _ _ ↦ rfl⟩ _ arg1 arg2 hop vm
    dsimp only
    revert hfalls hpc
    generalize (executeInstruction program opcode arg1 arg2).run vm = r
    cases r with
    | error e vm' => exact fun _ _ ↦ trivial
    | ok advance vm' =>
      intro hadvance hpc
      obtain rfl : advance = true := hadvance
      have hpc : vm'.pc = vm.pc := hpc
      have hsucc : successors vm.pc ⟨opcode, arg1, arg2⟩ = [vm.pc + 1] := by
        cases opcode <;> first | rfl | simp at hop
      rw [hsucc, ← hpc]
      exact List.mem_cons_self
  cases opcode with
  | jump => exact List.mem_cons_self
  | jumpIfFalse | jumpIfTrue =>
    have hpop := (Leaves.pop (g := Vm.pc) fun _ _ ↦ rfl).triple vm.pc
    refine EStateM.Triple.bind (hpop.consequence (fun _ h ↦ h) (fun _ _ h ↦ h) fun _ _ _ ↦ trivial)
      (fun cond vm₁ hpc ↦ ?_) vm rfl
    split
    · exact List.mem_cons_self
    · change vm₁.pc + 1 ∈ _
      rw [hpc]
      exact List.mem_cons_of_mem _ List.mem_cons_self
  | call | «return» | halt => simp at h
  | _ => simp at hop

/-- What a step that executes `instr` at `pc` does to the frames and to control. -/
inductive ControlStep (program : CompiledProgram) (pc : Nat) (instr : Instruction) :
    List CallFrame → List CallFrame → Nat → Prop
  | stay {frames : List CallFrame} {pc' : Nat} : instr.opcode ∉ [.call, .return, .halt] →
    pc' ∈ successors pc instr → ControlStep program pc instr frames frames pc'
  | call {frames : List CallFrame} {base : Nat} {func : FunctionInfo} : instr.opcode = .call →
    program.functions.lookup (asUsize instr.arg1) = some func →
    ControlStep program pc instr frames (⟨pc + 1, base, asUsize instr.arg1⟩ :: frames) func.entryPc
  | ret {frame : CallFrame} {frames : List CallFrame} {pc' : Nat} : instr.opcode = .return →
    (frame.returnPc ≠ usizeMax → pc' = frame.returnPc) →
    ControlStep program pc instr (frame :: frames) frames pc'

theorem controlStep_of_step (h : step program vm = .inl vm') : ∃ instr,
    program.instructions[vm.pc]? = some instr ∧
    ControlStep program vm.pc instr vm.callStack vm'.callStack vm'.pc := by
  obtain ⟨instr, hinstr, hframes⟩ := frameStep_of_step h
  obtain ⟨instr', advance, after, -, hinstr', hrun, -, rfl⟩ := step_inl h
  obtain rfl := Option.some_inj.mp (hinstr.symm.trans hinstr')
  have hpc (outcome : TraceOutcome) : (recordTrace vm (if advance then
      { after with pc := after.pc + 1 } else after) instr outcome).pc = target advance after := by
    cases advance <;> rfl
  refine ⟨instr, hinstr, ?_⟩
  rw [hpc] at hframes ⊢
  revert hframes
  generalize (recordTrace vm _ instr _).callStack = frames'
  generalize hframes : vm.callStack = frames
  intro hstep
  cases hstep with
  | stay hop =>
    have hpost := post_target program { vm with cycles := vm.cycles + 1 } hop
    rw [hrun] at hpost
    exact .stay hop hpost
  | call hop =>
    obtain ⟨opcode, arg1, arg2⟩ := instr
    obtain rfl : opcode = .call := hop
    have hpost := post_call program arg1 arg2 { vm with cycles := vm.cycles + 1 }
    rw [show (call program arg1 arg2).run _ = _ from hrun] at hpost
    obtain ⟨rfl, ⟨func, hfunc, hentry⟩, -⟩ := hpost
    rw [show target false after = func.entryPc from hentry]
    exact .call rfl hfunc
  | ret hop hret => exact .ret hop hret

/-! ## The chain of calls -/

/-- The active frames, when control is at `pc` in the function `funcId`: each waits in reached code
of the function that called the next one, `callers` from the innermost to `main`. -/
inductive Active (S : Setting) : List CallFrame → Nat → Nat → List Nat → Prop
  | main {frame : CallFrame} {pc : Nat} {info : FunctionInfo} {st : AbstractState} :
    At S S.program.mainFuncId pc info st → Active S [frame] pc S.program.mainFuncId []
  | call {frame : CallFrame} {frames : List CallFrame} {pc caller callee : Nat}
      {callers : List Nat} {info : FunctionInfo} {st : AbstractState} :
    Active S frames frame.returnPc caller callers → (caller, callee) ∈ callGraph S.program →
    At S callee pc info st → Active S (frame :: frames) pc callee (caller :: callers)

namespace Active

variable {S : Setting} {frames : List CallFrame} {pc pc' funcId : Nat} {callers : List Nat}

theorem exists_at (h : Active S frames pc funcId callers) :
    ∃ info st, At S funcId pc info st := by
  cases h with
  | main hat => exact ⟨_, _, hat⟩
  | call _ _ hat => exact ⟨_, _, hat⟩

/-- Control goes on in the same function. -/
theorem move (h : Active S frames pc funcId callers) {info : FunctionInfo} {st : AbstractState}
    (hat : At S funcId pc' info st) : Active S frames pc' funcId callers := by
  cases h with
  | main _ => exact .main hat
  | call hframes hedge _ => exact .call hframes hedge hat

/-- The functions of the frames are a chain of calls, one for each frame. -/
theorem visiting (h : Active S frames pc funcId callers) :
    LongestChain.Visiting (fun f g ↦ (f, g) ∈ callGraph S.program) S.program.mainFuncId funcId
      callers ∧ frames.length = callers.length + 1 := by
  induction h with
  | main => exact ⟨.root, rfl⟩
  | call _ hedge _ ih => exact ⟨ih.1.next hedge, congrArg Nat.succ ih.2⟩

/-- **One step keeps the chain.** -/
theorem step {frames' : List CallFrame} {instr : Instruction}
    (hverified : Verified S.program S.traps) (h : Active S frames pc funcId callers)
    (hinstr : S.program.instructions[pc]? = some instr)
    (hcontrol : ControlStep S.program pc instr frames frames' pc') (hne : frames' ≠ []) :
    ∃ funcId' callers', Active S frames' pc' funcId' callers' := by
  obtain ⟨info, st, hlookup, range, hid, hinfo, hcert, hst⟩ := h.exists_at
  obtain ⟨instr', hinstr', hops, -, -, hsucc, -, hedges⟩ := hcert.step pc st hst
  obtain rfl := Option.some_inj.mp (hinstr.symm.trans hinstr')
  cases hcontrol with
  | stay hop hmem =>
    obtain ⟨st', hst', -⟩ := hsucc pc' hmem
    exact ⟨funcId, callers, h.move ⟨hlookup, range, hid, hinfo, hcert, hst'⟩⟩
  | call hop hfunc =>
    have hnext : pc + 1 ∈ successors pc instr := by
      rw [successors, hop]
      exact List.mem_cons_self
    have hedge := hedges (funcId, asUsize instr.arg1) (mem_callEdges.mpr ⟨hid, hop, rfl⟩)
    obtain ⟨st', hst', -⟩ := hsucc _ hnext
    obtain ⟨entry, hentry, -⟩ := exists_at_entry hverified hfunc
    exact ⟨_, _, .call (h.move ⟨hlookup, range, hid, hinfo, hcert, hst'⟩) hedge hentry⟩
  | ret hop hpc =>
    cases h with
    | main => exact absurd rfl hne
    | call hframes _ _ =>
      obtain ⟨caller, st', hat⟩ := hframes.exists_at
      obtain ⟨-, range', -, -, hcert', hst'⟩ := hat
      obtain ⟨instr'', hinstr'', -⟩ := hcert'.step _ st' hst'
      have hlt := (List.getElem?_eq_some_iff.mp hinstr'').1
      have hcount := hverified.count
      have hlimits : maxInstructions < usizeMax := by decide
      rw [hpc (by omega)]
      exact ⟨_, _, hframes⟩

end Active

theorem exists_active {S : Setting} (hverified : Verified S.program S.traps) {maxCycles : Nat}
    {trace : Option (List TraceEvent)} (h : Reached S.program maxCycles trace vm) :
    ∃ funcId callers, Active S vm.callStack vm.pc funcId callers := by
  obtain ⟨vm₀, hstart, hreaches⟩ := h
  induction hreaches with
  | refl =>
    obtain ⟨info, hmain⟩ := hverified.main
    obtain ⟨st, hat, -⟩ := exists_at_entry hverified hmain
    rw [start, validate_of_verified hverified, hmain] at hstart
    dsimp only at hstart
    rw [if_neg (Nat.not_lt.mpr (hverified.slots _ _ hmain).2)] at hstart
    obtain rfl := Sum.inl.inj hstart
    exact ⟨_, _, .main hat⟩
  | tail hreaches hstep ih =>
    obtain ⟨funcId, callers, hactive⟩ := ih
    obtain ⟨instr, hinstr, hcontrol⟩ := controlStep_of_step hstep
    refine hactive.step hverified hinstr hcontrol ?_
    obtain ⟨instr', advance, after, -, -, -, hne, rfl⟩ := step_inl hstep
    cases advance <;> exact hne

/-- **The frame depth of the report is exact.** It is missing exactly when the calls in reached code
form a cycle below `main`; otherwise it is the number of functions on a longest chain of calls from
`main`, and no state of any run has more frames. -/
theorem maxFrameDepth_exact (program : CompiledProgram) (hvalid : (verify program).valid = true) :
    ((verify program).maxFrameDepth = none ↔
      LongestChain.ReachesCycle (Calls program) program.mainFuncId) ∧
    ∀ depth, (verify program).maxFrameDepth = some depth →
      LongestChain.IsLongest (Calls program) program.mainFuncId depth ∧
      ∀ maxCycles trace vm, Reached program maxCycles trace vm →
        vm.callStack.length ≤ depth := by
  have hcalls : (fun f g ↦ (f, g) ∈ callGraph program) = Calls program :=
    funext fun f ↦ funext fun g ↦ propext (mem_callGraph hvalid)
  rw [maxFrameDepth_verify, maxFrameDepth_eq_none, hcalls]
  refine ⟨Iff.rfl, fun depth hdepth ↦ ?_⟩
  rw [maxFrameDepth_eq_some, hcalls] at hdepth
  refine ⟨hdepth, fun maxCycles trace vm hreached ↦ ?_⟩
  let S : Setting := ⟨program, (verify program).possibleTraps, True, False⟩
  obtain ⟨funcId, callers, hactive⟩ := exists_active (S := S) (verified_of_valid hvalid) hreached
  obtain ⟨hvisiting, hlength⟩ := hactive.visiting
  obtain ⟨chain, hchain, hchainLength⟩ := hvisiting.exists_isChain (.singleton funcId)
  rw [hcalls] at hchain
  have hbound := hdepth.bound chain hchain
  rw [hlength]
  rw [hchainLength] at hbound
  exact hbound

/-- `main` calls a function that calls nothing. -/
def callsHelper : CompiledProgram where
  instructions := [⟨.call, 1, 0⟩, ⟨.return, 0, 0⟩, ⟨.loadConst, 1, 0⟩, ⟨.return, 0, 0⟩]
  functions := ⟨[⟨0, "main", 0, 0, 0, 0⟩, ⟨1, "helper", 1, 2, 0, 0⟩], by simp⟩
  globals := ∅
  mainFuncId := 0
  constants := []

theorem report_callsHelper : (verify callsHelper).valid = true ∧
    (verify callsHelper).maxFrameDepth = some 2 := by
  rw [verify, functionRanges_of_sorted (by decide)]
  decide +kernel

theorem maxFrameDepth_exact_callsHelper :
    LongestChain.IsLongest (Calls callsHelper) 0 2 ∧
      ∀ maxCycles trace vm, Reached callsHelper maxCycles trace vm → vm.callStack.length ≤ 2 :=
  (maxFrameDepth_exact callsHelper report_callsHelper.1).2 2 report_callsHelper.2

end Vm

end MiniLang
