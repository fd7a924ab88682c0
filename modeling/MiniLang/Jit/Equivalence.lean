import MiniLang.Bytecode.FrontEnd
import MiniLang.Jit.Entry
import MiniLang.Machine.Eligibility

/-!
# The machine code returns what the reference machine returns

On a compiled program that is eligible for the JIT, the machine code and the reference machine
return the same value, unless the run negates the least 32-bit value: the machine code does not
normalise a negation.

## The argument

Both sides are compared with the effect of straight-line code. The reference machine executes it, by
exactness of eligibility: compiled programs have a `main` without parameters, so no parameter is
loaded before it is stored. The machine code is the code of the prologue, of each instruction and of
the epilogue, one after the other, and each piece keeps the frame in step with the scalars
(`block_body`). What `Return` leaves in `rax` is the top of the operands on both sides.

Native code may be called in any state of the processor with the code in memory and room on the
stack. `JitAgrees` is about all of these calls; it says that a call which ends returns the value,
and that there is one which does.

## The operand that goes wrong

`NegatesLeastIn` asks whether some state of the reference machine's run has the least 32-bit value
on top where the next instruction is a negation. The value that the machine code has then is 2 ^ 31.
It may still come to nothing, if the program drops it or a later sum is normalised, which is why the
condition is sufficient and not necessary.
-/

namespace MiniLang

open ByteMemory X86 Verifier Compiler NativeFrame

variable {program : CompiledProgram} {main : FunctionInfo} {body : List Instruction}
  {source : List UInt8} {p : Program}

/-! ## The code of a straight-line program -/

namespace JitCompiler

theorem supportsOpcode_eq (opcode : Opcode) : supportsOpcode opcode = jitSupportsOpcode opcode := by
  cases opcode <;> rfl

theorem supportsCode_append {ret : Instruction} {rest : List Instruction}
    (hbody : ∀ instr ∈ body, jitSupportsOpcode instr.opcode = true ∧ instr.opcode ≠ .return)
    (hret : ret.opcode = .return) : supportsCode (body ++ ret :: rest) = true := by
  induction body with
  | nil =>
    rw [List.nil_append, supportsCode, hret]
    rfl
  | cons instr body ih =>
    obtain ⟨⟨hop, hreturn⟩, hrest⟩ := List.forall_mem_cons.mp hbody
    rw [List.cons_append, supportsCode, supportsOpcode_eq, hop, ih hrest, Bool.or_true,
      Bool.true_and]

theorem compileCode_append {ret : Instruction} {rest : List Instruction}
    (hbody : ∀ instr ∈ body, jitSupportsOpcode instr.opcode = true ∧ instr.opcode ≠ .return)
    (hret : ret.opcode = .return) : compileCode (body ++ ret :: rest) =
      body.flatMap compileInstruction ++ (MachineCode.pop .rax ++ emitEpilogue) := by
  induction body with
  | nil =>
    rw [List.nil_append, compileCode, if_pos hret, List.append_nil, compileInstruction, hret]
    rfl
  | cons instr body ih =>
    obtain ⟨⟨-, hreturn⟩, hrest⟩ := List.forall_mem_cons.mp hbody
    rw [List.cons_append, compileCode, if_neg hreturn, ih hrest, List.flatMap_cons,
      List.append_assoc]

/-- The code of a program whose `main` is straight-line code up to its first `Return`. -/
theorem compile_eq (hmain : program.functions.lookup program.mainFuncId = some main)
    (hsingle : program.functions.entries.length = 1) {ret : Instruction} {rest : List Instruction}
    (hcode : program.instructions.drop main.entryPc = body ++ ret :: rest)
    (hbody : ∀ instr ∈ body, jitSupportsOpcode instr.opcode = true ∧ instr.opcode ≠ .return)
    (hret : ret.opcode = .return) : compile program = some (emitPrologue ++
      (body.flatMap compileInstruction ++ (MachineCode.pop .rax ++ emitEpilogue))) := by
  have hlt : main.entryPc < program.instructions.length := by
    by_contra hle
    rw [List.drop_eq_nil_of_le (Nat.le_of_not_lt hle)] at hcode
    cases body <;> cases hcode
  have hsupports : supportsProgram program main.entryPc = true := by
    rw [supportsProgram, hcode, supportsCode_append hbody hret, hsingle, decide_eq_true hlt]
    rfl
  rw [compile, hmain]
  dsimp only [Option.map_some, Option.getD_some]
  rw [if_pos hsupports, hcode, compileCode_append hbody hret]

/-- The code of a program that runs straight. -/
theorem compile_straight (h : Straight program main body)
    (hsingle : program.functions.entries.length = 1) : compile program = some (emitPrologue ++
      (body.flatMap compileInstruction ++ (MachineCode.pop .rax ++ emitEpilogue))) := by
  obtain ⟨ret, rest, hcode, hret⟩ := h.code
  exact compile_eq h.lookup hsingle hcode h.supported hret

end JitCompiler

/-! ## Runs -/

namespace NativeFrame

variable {frame : NativeFrame} {s s' : Scalars} {localCount : Nat}

/-- **The run lemma.** -/
theorem block_body (hfits : s.Fits) (hlocals : localCount ≤ maxLocalSlots)
    (hrun : s.run localCount body = some s')
    (hneg : ∀ i s₁ instr, body[i]? = some instr → s.run localCount (body.take i) = some s₁ →
      ¬NegatesLeast s₁ instr) :
    Block (frame.With s []) (body.flatMap JitCompiler.compileInstruction) (frame.With s' []) := by
  induction body using List.reverseRecOn generalizing s' with
  | nil =>
    obtain rfl := Option.some_inj.mp hrun
    exact .nil
  | append_singleton body instr ih =>
    rw [Scalars.run_concat] at hrun
    obtain ⟨s₁, hbody, hexec⟩ := Option.bind_eq_some_iff.mp hrun
    rw [List.flatMap_append, List.flatMap_singleton]
    refine (ih hbody fun i s₂ instr' hi htake ↦ ?_).append
      (block_compileInstruction (hfits.run hbody) hlocals hexec ?_)
    · have hlt := (List.getElem?_eq_some_iff.mp hi).1
      refine hneg i s₂ instr' ?_ ?_
      · rw [List.getElem?_append_left hlt, hi]
      · rw [List.take_append_of_le_length hlt.le, htake]
    · exact hneg body.length s₁ instr List.getElem?_concat_length (by rwa [List.take_left' rfl])

end NativeFrame

/-- A call of the code of a program that runs straight. -/
theorem returns_of_run {origin : Word} {code : List Byte} {cpu : Cpu} {value : Int}
    {stack locals : List Int} (h : Straight program main body)
    (hsingle : program.functions.entries.length = 1) (hlocals : main.localCount ≤ maxLocalSlots)
    (hrun : Scalars.start.run main.localCount body = some ⟨value :: stack, locals⟩)
    (hneg : ∀ i s instr, body[i]? = some instr →
      Scalars.start.run main.localCount (body.take i) = some s → ¬NegatesLeast s instr)
    (hcode : JitCompiler.compile program = some code) (hcalled : Called origin code cpu) :
    Returns origin code cpu value := by
  rw [JitCompiler.compile_straight h hsingle] at hcode
  obtain rfl := Option.some_inj.mp hcode
  have hvalue : IsI32 value :=
    (Scalars.fits_start.run hrun).stack value List.mem_cons_self
  have hblock := (@NativeFrame.block_prologue (calledFrame cpu)).append
    ((NativeFrame.block_body Scalars.fits_start hlocals hrun hneg).append
      (NativeFrame.block_leave rfl))
  rw [← toInt_ofInt hvalue]
  refine NativeFrame.returns_of_block hcalled ?_ hblock
  simp only [JitCompiler.emitEpilogue, List.append_assoc]

/-! ## Eligible programs -/

/-- Somewhere in the run the reference machine negates the least 32-bit value. -/
def NegatesLeastIn (program : CompiledProgram) : Prop :=
  ∃ vm instr, Vm.Reached program MiniLang.maxCycles none vm ∧
    program.instructions[vm.pc]? = some instr ∧ instr.opcode = .neg ∧
    vm.stack.head? = some (-2 ^ 31)

/-- The reference machine returns `value`. -/
def VmReturns (program : CompiledProgram) (value : Int) : Prop :=
  ∃ fuel result vm, Vm.runFull program fuel (Vm.init MiniLang.maxCycles none) =
    some (.result result, vm) ∧ result.success = true ∧ result.returnValue = value

theorem VmReturns.unique {value value' : Int} (h : VmReturns program value)
    (h' : VmReturns program value') : value = value' := by
  obtain ⟨fuel, result, vm, hrun, -, rfl⟩ := h
  obtain ⟨fuel', result', vm', hrun', -, rfl⟩ := h'
  obtain ⟨hresult, -⟩ := Prod.mk.inj (Vm.runFull_unique hrun hrun')
  rw [VmHalt.result.inj hresult]

/-- Every call of the machine code returns what the reference machine returns. -/
def JitAgrees (program : CompiledProgram) : Prop :=
  ∃ code, JitCompiler.compile program = some code ∧
    ∀ origin cpu, Called origin code cpu → ∃ value,
      Returns origin code cpu value ∧ VmReturns program value

namespace Accepted

theorem keyedById (h : Accepted source p) : Vm.KeyedById (compile p) := by
  intro id info hinfo
  obtain ⟨func, -, rfl⟩ := h.lookup_iff.mp hinfo
  rfl

/-- `main` has no parameters to load. -/
theorem parametersStored (h : Accepted source p) : Vm.ParametersStored (compile p) := by
  intro main hmain i instr _ _ _ hparam
  obtain ⟨func, hfunc, rfl⟩ := h.lookup_iff.mp hmain
  obtain ⟨func', hfunc', -, hparams⟩ := h.exists_main
  obtain rfl := Option.some_inj.mp (hfunc.symm.trans hfunc')
  have hparam : asUsize instr.arg1 < func.params.length := hparam
  rw [hparams] at hparam
  exact absurd hparam (Nat.not_lt_zero _)

end Accepted

/-- **The machine code is right** where no run negates the least 32-bit value. -/
theorem jitAgrees_of_eligible (haccepted : Accepted source p)
    (heligible : (verify (compile p)).backendEligibility.jit.eligible = true)
    (hneg : ¬NegatesLeastIn (compile p)) : JitAgrees (compile p) := by
  obtain ⟨hvalid, htraps, hsingle, -⟩ := Vm.of_eligible heligible
  have hkeys := haccepted.keyedById
  have hverified := verified_of_valid hvalid
  obtain ⟨-, main, body, h⟩ := Vm.straight_of_eligible hkeys heligible
  have hsetup := Vm.setup_of_verified hverified h
  have hvalidate := validate_of_verified hverified
  obtain ⟨value, stack, locals, hrun⟩ :=
    Vm.exists_run_of_stored hverified htraps hkeys h haccepted.parametersStored
  refine ⟨_, JitCompiler.compile_straight h hsingle, fun origin cpu hcalled ↦ ⟨value, ?_, ?_⟩⟩
  · refine returns_of_run h hsingle hsetup.localCount_le hrun ?_
      (JitCompiler.compile_straight h hsingle) hcalled
    rintro i s instr hi htake ⟨hop, hleast⟩
    have hlt := (List.getElem?_eq_some_iff.mp hi).1
    obtain ⟨vm, hreached, hvm⟩ := Vm.reached_of_run hsetup hvalidate none hlt.le htake
    refine hneg ⟨vm, instr, hreached, ?_, hop, ?_⟩
    · rw [hvm.pc_eq, h.getElem? hi]
    · rw [← hvm.scalars_eq] at hleast
      exact hleast
  · obtain ⟨fuel, result, vm, hfull, hend⟩ := Vm.runFull_straight hsetup hvalidate none
    rw [hrun] at hend
    exact ⟨fuel, result, vm, hfull, hend.1, hend.2.2.1⟩

/-! ## A program that negates another value -/

def negatesFourSource : List UInt8 := asciiBytes "func main() \x7b int x = 7; return -(x - 3); \x7d"

def negatesFour : Program where
  globals := []
  functions := [{
    name := "main"
    params := []
    body := [
      .varDecl .int "x" (some (.intLiteral 7 ⟨1, 23⟩)) none ⟨1, 15⟩,
      .returnStmt (.unary .neg (.binary .sub (.identifier "x" ⟨1, 35⟩) (.intLiteral 3 ⟨1, 39⟩)
        ⟨1, 35⟩) ⟨1, 33⟩) ⟨1, 26⟩]
    span := ⟨1, 1⟩ }]

theorem accepted_negatesFour : Accepted negatesFourSource negatesFour := by
  have htokens : tokenize negatesFourSource = [⟨.kwFunc, ⟨1, 1⟩⟩, ⟨.identifier "main", ⟨1, 6⟩⟩,
      ⟨.lParen, ⟨1, 10⟩⟩, ⟨.rParen, ⟨1, 11⟩⟩, ⟨.lBrace, ⟨1, 13⟩⟩, ⟨.kwInt, ⟨1, 15⟩⟩,
      ⟨.identifier "x", ⟨1, 19⟩⟩, ⟨.assign, ⟨1, 21⟩⟩, ⟨.intLiteral 7, ⟨1, 23⟩⟩,
      ⟨.semicolon, ⟨1, 24⟩⟩, ⟨.kwReturn, ⟨1, 26⟩⟩, ⟨.minus, ⟨1, 33⟩⟩, ⟨.lParen, ⟨1, 34⟩⟩,
      ⟨.identifier "x", ⟨1, 35⟩⟩, ⟨.minus, ⟨1, 37⟩⟩, ⟨.intLiteral 3, ⟨1, 39⟩⟩,
      ⟨.rParen, ⟨1, 40⟩⟩, ⟨.semicolon, ⟨1, 41⟩⟩, ⟨.rBrace, ⟨1, 43⟩⟩, ⟨.eof, ⟨1, 44⟩⟩] := by
    decide +kernel
  refine ⟨?_, by rfl⟩
  rw [Parsed, htokens]
  rfl

/-- The value that is negated is 4. -/
theorem jitAgrees_of_eligible_negatesFour :
    JitAgrees (compile negatesFour) ∧ VmReturns (compile negatesFour) (-4) := by
  have hruns : (verify (compile negatesFour)).backendEligibility.jit.eligible = true ∧
      (Vm.start (compile negatesFour) (Vm.init MiniLang.maxCycles none)).elim
        (Stepping.checked (Vm.step (compile negatesFour)) (fun vm ↦
          ((compile negatesFour).instructions[vm.pc]?).map Instruction.opcode ≠ some .neg ∨
            vm.stack.head? = some 4) 10) (fun _ ↦ false) = true ∧
      Vm.run (compile negatesFour) 10 (Vm.init MiniLang.maxCycles none) =
        some (.result ⟨true, -4, .none, "", 7, [], 6, 0, 0⟩) := by
    decide +kernel
  obtain ⟨heligible, hchecked, hrun⟩ := hruns
  obtain ⟨⟨halt, vm'⟩, hfull, rfl⟩ := Option.map_eq_some_iff.mp hrun
  refine ⟨jitAgrees_of_eligible accepted_negatesFour heligible ?_, 10, _, vm', hfull, rfl, rfl⟩
  rintro ⟨vm, instr, ⟨vm₀, hstart, hreaches⟩, hinstr, hop, hleast⟩
  rw [hstart, Sum.elim_inl] at hchecked
  have hcheck := hreaches.of_checked hchecked
  rcases of_decide_eq_true hcheck with hother | hfour
  · rw [hinstr, Option.map_some, hop] at hother
    exact hother rfl
  · cases hleast.symm.trans hfour

/-! ## The failing input -/

def negatesLeastSource : List UInt8 :=
  asciiBytes "func main() \x7b return -(0 - 2147483647 - 1); \x7d"

def negatesLeast : Program where
  globals := []
  functions := [{
    name := "main"
    params := []
    body := [.returnStmt (.unary .neg (.binary .sub (.binary .sub (.intLiteral 0 ⟨1, 24⟩)
      (.intLiteral 2147483647 ⟨1, 28⟩) ⟨1, 24⟩) (.intLiteral 1 ⟨1, 41⟩) ⟨1, 24⟩) ⟨1, 22⟩) ⟨1, 15⟩]
    span := ⟨1, 1⟩ }]

def negatesLeastTokens : List Token := [⟨.kwFunc, ⟨1, 1⟩⟩, ⟨.identifier "main", ⟨1, 6⟩⟩,
  ⟨.lParen, ⟨1, 10⟩⟩, ⟨.rParen, ⟨1, 11⟩⟩, ⟨.lBrace, ⟨1, 13⟩⟩, ⟨.kwReturn, ⟨1, 15⟩⟩,
  ⟨.minus, ⟨1, 22⟩⟩, ⟨.lParen, ⟨1, 23⟩⟩, ⟨.intLiteral 0, ⟨1, 24⟩⟩, ⟨.minus, ⟨1, 26⟩⟩,
  ⟨.intLiteral 2147483647, ⟨1, 28⟩⟩, ⟨.minus, ⟨1, 39⟩⟩, ⟨.intLiteral 1, ⟨1, 41⟩⟩,
  ⟨.rParen, ⟨1, 42⟩⟩, ⟨.semicolon, ⟨1, 43⟩⟩, ⟨.rBrace, ⟨1, 45⟩⟩, ⟨.eof, ⟨1, 46⟩⟩]

/-- A processor that calls code at 4096, with return address 0. -/
def sampleCpu : Cpu where
  rip := 4096
  machine := {
    regs := fun reg ↦ if reg = .rsp then 2 ^ 32 else 0
    flags := none
    mem := fun _ ↦ 0 }

/-- The value that a call of code at 4096 returns, if it ends. -/
def sampleValue (program : CompiledProgram) : Option Int := do
  match Stepping.run (X86.step 4096 (← JitCompiler.compile program)) 100 sampleCpu with
  | some (.left cpu) => return (cpu.machine.regs .rax).toInt
  | _ => none

theorem negatesLeast_runs : tokenize negatesLeastSource = negatesLeastTokens ∧
    (verify (compile negatesLeast)).backendEligibility.jit.eligible = true ∧
    sampleValue (compile negatesLeast) = some (2 ^ 31) ∧
    (JitCompiler.compile (compile negatesLeast)).all (·.length ≤ 2 ^ 16) = true := by
  decide +kernel

theorem accepted_negatesLeast : Accepted negatesLeastSource negatesLeast := by
  refine ⟨?_, by rfl⟩
  rw [Parsed, negatesLeast_runs.1]
  rfl

theorem eq_of_returns_sample {program : CompiledProgram} {code : List Byte} {value value' : Int}
    (h : sampleValue program = some value) (hcode : JitCompiler.compile program = some code)
    (hreturns : Returns 4096 code sampleCpu value') : value' = value := by
  obtain ⟨fuel, cpu, hrun, -, -, -, rfl⟩ := hreturns
  rw [sampleValue, hcode] at h
  have h : (match Stepping.run (X86.step 4096 code) 100 sampleCpu with
    | some (.left cpu) => some (cpu.machine.regs .rax).toInt
    | _ => none) = some value := h
  split at h
  · next cpu' hrun' =>
    obtain rfl := Outcome.left.inj (Stepping.run_unique hrun hrun')
    exact Option.some_inj.mp h
  · cases h

theorem called_sample {code : List Byte} (h : code.length ≤ 2 ^ 16) : Called 4096 code sampleCpu where
  rip := rfl
  size := by omega
  outside := h.trans (by decide)

/-- The machine code returns 2147483648, the reference machine -2147483648. -/
theorem not_jitAgrees_negatesLeast : ¬JitAgrees (compile negatesLeast) := by
  rintro ⟨code, hcode, hagrees⟩
  obtain ⟨-, -, hvalue, hall⟩ := negatesLeast_runs
  rw [hcode] at hall
  obtain ⟨value, hjit, hvm⟩ := hagrees 4096 sampleCpu (called_sample (of_decide_eq_true hall))
  obtain rfl := eq_of_returns_sample hvalue hcode hjit
  have hvm' : VmReturns (compile negatesLeast) (-2 ^ 31) := ⟨20, _, _, rfl, rfl, rfl⟩
  exact absurd (hvm.unique hvm') (by decide)

theorem not_jitAgrees_of_eligible : ¬∀ source p, Accepted source p →
    (verify (compile p)).backendEligibility.jit.eligible = true → JitAgrees (compile p) :=
  fun h ↦ not_jitAgrees_negatesLeast (h _ _ accepted_negatesLeast negatesLeast_runs.2.1)

end MiniLang
