import MiniLang.Bytecode.Verified
import MiniLang.Machine.VmRules

/-!
# Verified programs run safely

The verifier's certificate over-approximates every state the reference machine reaches: the operand
stack is as deep as the certificate says, frame by frame, and the locals it takes for initialised
are, with one exception: the parameters of the initial frame of `main`, which nobody passes. Hence a
run traps only as the report predicts, as long as no step reads such a parameter.

## The invariant

`Safe` describes a state by an activation: the innermost frame is at a program counter where the
certificate has an entry, and its operands lie on top of those of its callers. The frames below are
`Suspended`: each waits at the instruction after its call, where the certificate counts the result
that the callee is going to leave, so that its own operands are one fewer until then. The heights at
which the frames entered come out of this relation, and with them the depth the verifier tracks for
each function alone becomes a statement about the stack that all frames share.

## Two assumptions

There are two things that the verifier does not see, and a `Setting` says how they are treated. The
marker of an undefined local may become an operand through an element of a local array: a lenient
setting allows that, together with the panic of a negation or division that it leads to, a strict
one is for programs that load no such element. A frame may return with more than one operand: a
balanced setting assumes that it does not, which is what the heights at entry need to agree with the
verifier's depths. Each result about runs picks its setting, and `Assumed` is what it has to supply
for a step.

## The argument

`Runs` and its rules say of an operand function how it changes the depth, what is true of its value,
and how it may stop. There is one rule for each operand function and one for each opcode; the
verifier's effect of the opcode is used only there. Calls and returns, which change the activation,
come after them. The step lemma is `stepsSafely`, the run lemma is `safe_reached`.
-/

namespace MiniLang

open Verifier

/-! ## Preflight -/

theorem requiredGlobalSlots_le {infos : List GlobalInfo} {maxSlot : Nat}
    (h : ∀ info ∈ infos, GlobalOk info) (hmax : maxSlot ≤ maxGlobalSlots) :
    ∃ slots, requiredGlobalSlots infos maxSlot = .ok slots ∧ slots ≤ maxGlobalSlots := by
  induction infos generalizing maxSlot with
  | nil => exact ⟨maxSlot, rfl, hmax⟩
  | cons info infos ih =>
    obtain ⟨⟨hsize, hlast⟩, hrest⟩ := List.forall_mem_cons.mp h
    have hadd : checkedAdd info.slot (width info) = some (info.slot + width info) := by
      rw [checkedAdd, if_pos (hlast.trans (by decide))]
    rw [requiredGlobalSlots, if_neg fun hzero ↦ hsize hzero.1 hzero.2]
    rw [width] at hadd hlast
    simp only [hadd]
    exact ih hrest (max_le hmax hlast)

theorem validateFunctions_eq_ok {infos : List FunctionInfo} (h : ∀ info ∈ infos, SlotsOk info) :
    validateFunctions infos = .ok () := by
  induction infos with
  | nil => rfl
  | cons info infos ih =>
    obtain ⟨hinfo, hrest⟩ := List.forall_mem_cons.mp h
    rw [validateFunctions, if_neg (Nat.not_lt.mpr hinfo.1), if_neg (Nat.not_lt.mpr hinfo.2)]
    exact ih hrest

theorem validate_eq_ok {program : CompiledProgram}
    (hcount : program.instructions.length ≤ maxInstructions)
    (hslots : ∀ id info, program.functions.lookup id = some info → SlotsOk info)
    (hglobals : ∀ info ∈ program.globals.values, GlobalOk info) : program.validate = .ok () := by
  obtain ⟨slots, hok, hle⟩ := requiredGlobalSlots_le hglobals (Nat.zero_le maxGlobalSlots)
  have hfunctions : validateFunctions program.functions.values = .ok () := by
    refine validateFunctions_eq_ok fun info hmem ↦ ?_
    obtain ⟨⟨id, _⟩, hentry, rfl⟩ := List.mem_map.mp hmem
    exact hslots id _ (AList.mem_lookup_iff.mpr hentry)
  rw [CompiledProgram.validate, if_neg (Nat.not_lt.mpr hcount), hfunctions, hok]
  exact if_neg (Nat.not_lt.mpr hle)

/-- The preflight checks of the machines repeat checks of the verifier. -/
theorem validate_of_verified {program : CompiledProgram} {traps : List TrapCode}
    (h : Verified program traps) : program.validate = .ok () :=
  validate_eq_ok h.count h.slots h.globals

namespace Vm


/-! ## Predicted outcomes -/

/-- What the safety argument is relative to: the program, the possible traps of its report, and two
assumptions about the run. -/
structure Setting where
  program : CompiledProgram
  traps : List TrapCode
  /-- The marker of an undefined local may turn up as a value. -/
  lenient : Prop
  /-- Frames return with one operand. -/
  balanced : Prop

variable {S : Setting} {vm vm' : Vm}

/-- `message` is that of a failed check of an array base. -/
def BadArrayBase (message : String) : Prop :=
  ∃ refSlot size vm vm',
    (localArrayBase refSlot size).run vm = .error (.trap .invalidInstruction message) vm'

/-- The traps a verified program may stop with. -/
def Predicted (S : Setting) : Stop → Prop
  | .trap .divideByZero _ => .divideByZero ∈ S.traps
  | .trap .arrayOutOfBounds _ => .arrayOutOfBounds ∈ S.traps
  | .trap .undefinedLocal _ => S.lenient ∨ .undefinedLocal ∈ S.traps
  | .trap .stackOverflow _ | .trap .cycleLimit _ => True
  | .trap .invalidInstruction message => BadArrayBase message
  | .trap .none _ | .trap .undefinedFunction _ | .trap .stackUnderflow _ | .panic => False

/-- With these operands `instr` negates the marker of an undefined local or divides it by `-1`: the
marker is the least 64-bit integer, so that the result has no representation. -/
def OverflowsOnMarker (instr : Instruction) (stack : List Int) : Prop :=
  (instr.opcode = .neg ∧ ∃ rest, stack = i64Min :: rest) ∨
    (instr.opcode = .div ∧ ∃ rest, stack = -1 :: i64Min :: rest)

/-- The ways a verified program may stop at `instr` with the operands `stack`. -/
def Stops (S : Setting) (instr : Instruction) (stack : List Int) (e : Stop) : Prop :=
  Predicted S e ∨ e = .panic ∧ S.lenient ∧ OverflowsOnMarker instr stack

/-- `value` is not the marker of an undefined local, unless the setting is lenient. -/
def Proper (S : Setting) (value : Int) : Prop := ¬S.lenient → value ≠ i64Min

/-! ## Frames -/

/-- Control is at `pc` in the function `funcId`, where the certificate says `st`. -/
structure At (S : Setting) (funcId pc : Nat) (info : FunctionInfo) (st : AbstractState) : Prop where
  lookup : S.program.functions.lookup funcId = some info
  certified : ∃ range, range.id = funcId ∧ range.info = info ∧
    Certified S.program range S.traps (callGraph S.program) (stateAt S.program funcId) ∧
    stateAt S.program funcId pc = some st

/-- The number of locals of a frame that nobody may have passed: the parameters of the initial
frame, which has no frame below it. -/
def exempt (info : FunctionInfo) : List CallFrame → Nat
  | [] => info.paramCount
  | _ :: _ => 0

/-- The locals of `frame`, above `frames`, that `init` takes for initialised are, but for the
exempt ones. -/
def Initialised (S : Setting) (locals : List Int) (frame : CallFrame)
    (frames : List CallFrame) (info : FunctionInfo) (init : List Bool) : Prop :=
  ¬S.lenient → ∀ slot < info.localCount, init[slot]? = some true →
    locals[frame.basePtr + slot]? = some i64Min → slot < exempt info frames

/-- The frames below one whose locals start at `base` and that returns to `pc`: each waits at the
instruction after its call for the result, above `below` values of its own and its callers.
`entries` lists the heights of the stack at the entries of these frames. -/
inductive Suspended (S : Setting) (locals : List Int) :
    List CallFrame → Nat → Nat → Nat → List Nat → Prop
  | nil : Suspended S locals [] usizeMax 0 0 []
  | cons {frame : CallFrame} {frames : List CallFrame} {pc below : Nat} {entries : List Nat}
      {info : FunctionInfo} {st : AbstractState} : pc ≠ usizeMax → At S frame.funcId pc info st →
      0 < st.stackDepth → frame.basePtr + info.localCount ≤ maxLocalSlots →
      Initialised S locals frame frames info st.initializedLocals →
      Suspended S locals frames frame.returnPc frame.basePtr below entries →
      Suspended S locals (frame :: frames) pc (frame.basePtr + info.localCount)
        (below + st.stackDepth - 1) (below :: entries)

/-- The marks of the cells below `top` in `locals'` are marks in `locals`. -/
def MarksBelow (S : Setting) (top : Nat) (locals locals' : List Int) : Prop :=
  ¬S.lenient → ∀ cell < top,
    locals'[cell]? = some i64Min → locals[cell]? = some i64Min

section Marks

variable {locals locals' : List Int} {frame : CallFrame} {frames : List CallFrame}
  {info : FunctionInfo} {init : List Bool} {pc base below top : Nat} {entries : List Nat}

theorem MarksBelow.mono (h : MarksBelow S top locals locals') (hbase : base ≤ top) :
    MarksBelow S base locals locals' :=
  fun hload cell hcell ↦ h hload cell (by omega)

theorem Initialised.of_locals (h : Initialised S locals frame frames info init)
    (hlocals : MarksBelow S (frame.basePtr + info.localCount) locals locals') :
    Initialised S locals' frame frames info init :=
  fun hload slot hslot hinit hcell ↦
    h hload slot hslot hinit (hlocals hload _ (by omega) hcell)

theorem Suspended.cases_frames (h : Suspended S locals frames pc base below entries) :
    frames = [] ∧ pc = usizeMax ∨ ∃ caller callers below' entries' info st,
      frames = caller :: callers ∧ entries = below' :: entries' ∧ pc ≠ usizeMax ∧
      At S caller.funcId pc info st ∧ 0 < st.stackDepth ∧
      caller.basePtr + info.localCount ≤ maxLocalSlots ∧
      Initialised S locals caller callers info st.initializedLocals ∧
      Suspended S locals callers caller.returnPc caller.basePtr below' entries' ∧
      below = below' + st.stackDepth - 1 := by
  cases h with
  | nil => exact .inl ⟨rfl, rfl⟩
  | cons hpc hat hpos hlimit hinit h =>
    exact .inr ⟨_, _, _, _, _, _, rfl, rfl, hpc, hat, hpos, hlimit, hinit, h, rfl⟩

/-- What happens to cells above `base` does not concern the frames below. -/
theorem Suspended.of_locals (h : Suspended S locals frames pc base below entries)
    (hlocals : MarksBelow S base locals locals') :
    Suspended S locals' frames pc base below entries := by
  induction h with
  | nil => exact .nil
  | cons hpc hat hpos hlimit hinit _ ih =>
    exact .cons hpc hat hpos hlimit (hinit.of_locals hlocals) (ih (hlocals.mono (by omega)))

theorem marksBelow_set {cell : Nat} {value : Int} (h : Proper S value) :
    MarksBelow S top locals (locals.set cell value) := by
  intro hload i _ hi
  rw [List.getElem?_set] at hi
  split at hi
  · split at hi
    · exact absurd (Option.some_inj.mp hi) (h hload)
    · cases hi
  · exact hi

end Marks

/-- An activation of a function: its frame, the frames below it, its metadata, the number of values
its callers keep on the stack, and the heights of the stack at their entries. -/
structure Activation where
  frame : CallFrame
  frames : List CallFrame
  info : FunctionInfo
  below : Nat
  entries : List Nat

/-- The machine is in the activation `act` at `pc`, where the locals in `init` are initialised and
the stack holds `depth` values of this activation. -/
structure Within (S : Setting) (act : Activation) (pc : Nat) (init : List Bool) (depth : Nat)
    (vm : Vm) : Prop where
  callStack : vm.callStack = act.frame :: act.frames
  pc_eq : vm.pc = pc
  lookup : S.program.functions.lookup act.frame.funcId = some act.info
  limit : act.frame.basePtr + act.info.localCount ≤ maxLocalSlots
  initialised : Initialised S vm.locals act.frame act.frames act.info init
  suspended : Suspended S vm.locals act.frames act.frame.returnPc act.frame.basePtr act.below
    act.entries
  depth_le : act.below + depth ≤ vm.stack.length
  depth_eq : S.balanced → vm.stack.length = act.below + depth
  stack_le : vm.stack.length ≤ maxOperandStack
  locals : maxLocalSlots ≤ vm.locals.length
  globals : vm.globals.length = maxGlobalSlots
  stackProper : ∀ value ∈ vm.stack, Proper S value
  globalsProper : ∀ value ∈ vm.globals, Proper S value

/-- The certificate describes the machine's state, in the activation `act`. -/
def SafeIn (S : Setting) (act : Activation) (vm : Vm) : Prop :=
  ∃ st, At S act.frame.funcId vm.pc act.info st ∧
    Within S act vm.pc st.initializedLocals st.stackDepth vm

/-- **The safety invariant.** -/
def Safe (S : Setting) (vm : Vm) : Prop := ∃ act, SafeIn S act vm

/-! ## Instructions -/

section Instructions

variable {act : Activation} {pc depth : Nat} {init : List Bool}

/-- `x` takes the stack of the activation from `depth` to `depth'` values, with a result satisfying
`Q`, or stops as predicted. -/
abbrev Runs {α : Type} (S : Setting) (act : Activation)
    (pc : Nat) (init : List Bool) (depth : Nat) (x : VmM α) (depth' : Nat) (Q : α → Prop) : Prop :=
  EStateM.Triple (Within S act pc init depth) x
    (fun a vm ↦ Q a ∧ Within S act pc init depth' vm)
    fun e _ ↦ Predicted S e

/-- A stack that is deep enough has a top. -/
theorem Within.exists_cons (hvm : Within S act pc init (depth + 1) vm) :
    ∃ value stack, vm.stack = value :: stack ∧ Proper S value ∧
      Within S act pc init depth { vm with stack := stack } := by
  have hdepth := hvm.depth_le
  have heq := hvm.depth_eq
  have hproper := hvm.stackProper
  have hle := hvm.stack_le
  cases hstack : vm.stack with
  | nil =>
    rw [hstack, List.length_nil] at hdepth
    omega
  | cons value stack =>
    rw [hstack] at hdepth heq hproper hle
    obtain ⟨hvalue, hrest⟩ := List.forall_mem_cons.mp hproper
    exact ⟨value, stack, rfl, hvalue, { hvm with
      depth_le := Nat.le_of_succ_le_succ hdepth
      depth_eq := fun hbalanced ↦ Nat.succ_inj.mp (heq hbalanced)
      stack_le := Nat.le_of_succ_le hle
      stackProper := hrest }⟩

/-- The cell of a local slot. -/
theorem Within.cell_lt (hvm : Within S act pc init depth vm) {slot : Nat}
    (hslot : slot < act.info.localCount) : act.frame.basePtr + slot < maxLocalSlots := by
  have := hvm.limit
  omega

theorem Within.exists_local (hvm : Within S act pc init depth vm) {slot : Nat}
    (hslot : slot < act.info.localCount) :
    ∃ value, vm.locals[act.frame.basePtr + slot]? = some value :=
  ⟨_, List.getElem?_eq_getElem (Nat.lt_of_lt_of_le (hvm.cell_lt hslot) hvm.locals)⟩

/-- Writing a proper value into any cell. -/
theorem Within.writeLocal {cell : Nat} {value : Int}
    (hvm : Within S act pc init depth vm) (hvalue : Proper S value) :
    Within S act pc init depth { vm with locals := vm.locals.set cell value } :=
  { hvm with
    initialised := hvm.initialised.of_locals (marksBelow_set hvalue)
    suspended := hvm.suspended.of_locals (marksBelow_set hvalue)
    locals := hvm.locals.trans_eq List.length_set.symm }

namespace Runs

variable {α β : Type} {x : VmM α} {f : α → VmM β} {Q : α → Prop} {T : β → Prop} {d d' d'' : Nat}

theorem bind (hx : Runs S act pc init d x d' Q)
    (hf : ∀ a, Q a → Runs S act pc init d' (f a) d'' T) :
    Runs S act pc init d (x >>= f) d'' T :=
  EStateM.Triple.bind hx fun a vm hvm ↦ hf a hvm.1 vm hvm.2

theorem pure {a : α} (h : Q a) : Runs S act pc init d (Pure.pure a) d Q :=
  EStateM.Triple.pure fun _ hvm ↦ ⟨h, hvm⟩

theorem pop : Runs S act pc init (d + 1) pop d (Proper S) := by
  intro vm hvm
  obtain ⟨value, stack, hstack, hvalue, hrest⟩ := hvm.exists_cons
  rw [run_pop hstack]
  exact ⟨hvalue, hrest⟩

theorem push {value : Int} (h : Proper S value) :
    Runs S act pc init d (push value) (d + 1) fun _ ↦ True := by
  intro vm hvm
  by_cases hlt : vm.stack.length < maxOperandStack
  · rw [run_push hlt]
    exact ⟨trivial, { hvm with
      depth_le := Nat.succ_le_succ hvm.depth_le
      depth_eq := fun hbalanced ↦ congrArg (· + 1) (hvm.depth_eq hbalanced)
      stack_le := hlt
      stackProper := List.forall_mem_cons.mpr ⟨h, hvm.stackProper⟩ }⟩
  · rw [run_push_overflow (Nat.le_of_not_lt hlt)]
    trivial

/-- The slot is one of the frame's cells. -/
theorem currentLocalSlot {raw : Int32} (hraw : 0 ≤ raw) (hslot : asUsize raw < act.info.localCount) :
    Runs S act pc init d (currentLocalSlot S.program raw) d
      (· = act.frame.basePtr + asUsize raw) := by
  intro vm hvm
  have hlimit := hvm.limit
  rw [run_currentLocalSlot hraw hvm.callStack hvm.lookup hslot (by omega)]
  exact ⟨rfl, hvm⟩

theorem globalSlot {raw : Int32} (h : IsGlobal raw) :
    Runs S act pc init d (globalSlot raw) d (· = asUsize raw) := by
  intro vm hvm
  rw [run_globalSlot h.1 (hvm.globals ▸ h.2)]
  exact ⟨rfl, hvm⟩

theorem arraySize {raw : Int32} (h : 0 < raw) :
    Runs S act pc init d (arraySize raw) d (· = asUsize raw) := by
  intro vm hvm
  rw [run_arraySize (Int32.le_of_lt h)]
  exact ⟨rfl, hvm⟩

theorem globalArrayRange {raw rawSize : Int32} (h : IsGlobalArray raw rawSize) :
    Runs S act pc init d (globalArrayRange raw rawSize) d
      (· = (asUsize raw, asUsize rawSize)) := by
  intro vm hvm
  rw [run_globalArrayRange h.1.1 (Int32.le_of_lt h.2.1) (hvm.globals ▸ h.1.2) (hvm.globals ▸ h.2.2)
    (hvm.globals ▸ by decide)]
  exact ⟨rfl, hvm⟩

theorem arrayIndex {raw : Int} {size : Nat} (h : .arrayOutOfBounds ∈ S.traps) :
    Runs S act pc init d (arrayIndex raw size) d (· < size) := by
  intro vm hvm
  by_cases hraw : raw < 0 ∨ raw.toNat ≥ size
  · rw [run_arrayIndex_error hraw]
    exact h
  · rw [not_or, Int.not_lt, Nat.not_le] at hraw
    rw [run_arrayIndex hraw.1 hraw.2]
    exact ⟨hraw.2, hvm⟩

theorem readGlobal {slot : Nat} (h : slot < maxGlobalSlots) :
    Runs S act pc init d (readGlobal slot) d (Proper S) := by
  intro vm hvm
  have hget := List.getElem?_eq_getElem (hvm.globals.symm ▸ h : slot < vm.globals.length)
  rw [run_readGlobal hget]
  exact ⟨hvm.globalsProper _ (List.mem_of_getElem? hget), hvm⟩

theorem writeGlobal {slot : Nat} {value : Int} (h : slot < maxGlobalSlots)
    (hvalue : Proper S value) :
    Runs S act pc init d (writeGlobal slot value) d fun _ ↦ True := by
  intro vm hvm
  rw [run_writeGlobal (hvm.globals.symm ▸ h)]
  exact ⟨trivial, { hvm with
    globals := List.length_set.trans hvm.globals
    globalsProper := fun v hv ↦ (List.mem_or_eq_of_mem_set hv).elim (hvm.globalsProper v)
      fun heq ↦ heq ▸ hvalue }⟩

theorem binary {f : Int → Int → Int} (h : ∀ a b, Proper S (f a b)) :
    Runs S act pc init (d + 2) (binary f) (d + 1) (· = true) :=
  pop.bind fun b _ ↦ pop.bind fun a _ ↦ (push (h a b)).bind fun _ _ ↦ pure rfl

end Runs

theorem proper_normalizeI32 (value : Int) : Proper S (normalizeI32 value) :=
  fun _ ↦ normalizeI32_ne_i64Min value

theorem proper_flag (p : Prop) [Decidable p] : Proper S (flag p) := fun _ ↦ flag_ne_i64Min p

theorem proper_natCast (n : Nat) : Proper S n := fun _ ↦ natCast_ne_i64Min n

theorem proper_toInt (arg : Int32) : Proper S arg.toInt := fun _ ↦ toInt_ne_i64Min arg

/-- The outcomes of reading an array base from a cell that holds `raw`. -/
theorem localArrayBase_cases {cell : Nat} {raw : Int} (size : Nat) (h : vm.locals[cell]? = some raw) :
    (raw = i64Min ∧ ∃ message, (localArrayBase cell size).run vm =
      .error (.trap .undefinedLocal message) vm) ∨
    (∃ message, (localArrayBase cell size).run vm =
      .error (.trap .invalidInstruction message) vm) ∨
    ∃ base, (localArrayBase cell size).run vm = .ok base vm ∧ base + size ≤ vm.locals.length := by
  rw [localArrayBase, EStateM.run_bind, run_readLocal h]
  by_cases hundef : raw = i64Min
  · exact .inl ⟨hundef, _, by simp only [hundef, if_true]; rfl⟩
  refine .inr ?_
  by_cases hneg : raw < 0
  · exact .inl ⟨_, by simp only [hundef, hneg, if_true, if_false]; rfl⟩
  simp only [hundef, hneg, if_false]
  cases hadd : checkedAdd raw.toNat size with
  | none => exact .inl ⟨_, rfl⟩
  | some last =>
    obtain ⟨-, rfl⟩ := checkedAdd_eq_some.mp hadd
    by_cases hlast : raw.toNat + size > vm.locals.length
    · exact .inl ⟨_, by simp only [EStateM.run_bind, EStateM.run_get, hlast, if_true]; rfl⟩
    · refine .inr ⟨raw.toNat, ?_, Nat.le_of_not_lt hlast⟩
      simp only [EStateM.run_bind, EStateM.run_get, hlast, if_false]
      rfl

/-- What `Runs` says of one execution. -/
abbrev Ends {α : Type} (S : Setting) (act : Activation)
    (pc : Nat) (init : List Bool) (d : Nat) (Q : α → Prop) (r : EStateM.Result Stop Vm α) : Prop :=
  r.Post (fun a vm ↦ Q a ∧ Within S act pc init d vm) fun e _ ↦
    Predicted S e

/-- The end of both array instructions: once the base has been read, the element is within the
locals. -/
theorem localArrayBase_bind {β : Type} {cell size index d d' : Nat} {f : Nat → VmM β} {T : β → Prop}
    (hvm : Within S act pc init d vm) (hcell : cell < maxLocalSlots)
    (hindex : index < size)
    (hdefined : vm.locals[cell]? = some i64Min →
      S.lenient ∨ .undefinedLocal ∈ S.traps)
    (hf : ∀ base, base + index < vm.locals.length →
      Ends S act pc init d' T ((f base).run vm)) :
    Ends S act pc init d' T ((localArrayBase cell size >>= f).run vm) := by
  have hget := List.getElem?_eq_getElem (Nat.lt_of_lt_of_le hcell hvm.locals)
  rw [EStateM.run_bind]
  rcases localArrayBase_cases size hget with
    ⟨hundef, message, hrun⟩ | ⟨message, hrun⟩ | ⟨base, hrun, hlast⟩
  · rw [hrun]
    exact hdefined (hundef ▸ hget)
  · rw [hrun]
    exact ⟨cell, size, vm, vm, hrun⟩
  · rw [hrun]
    exact hf base (by omega)

/-! ### Opcodes -/

/-- Executing `instr` on the operands `stack` leads to one of its successors, with the effect the
verifier computes, or stops as predicted. -/
abbrev Steps (S : Setting) (act : Activation) (pc : Nat) (st : AbstractState) (instr : Instruction)
    (stack : List Int) (r : EStateM.Result Stop Vm Bool) : Prop :=
  r.Post (fun advance vm ↦ ∃ pc', (if advance then pc' + 1 else pc') ∈ successors pc instr ∧
      Within S act pc' (after instr st).initializedLocals (after instr st).stackDepth vm)
    fun e _ ↦ Stops S instr stack e

theorem Steps.of_ends {st : AbstractState} {instr : Instruction} {d : Nat} {stack : List Int}
    {r : EStateM.Result Stop Vm Bool} (h : Ends S act pc init d (· = true) r)
    (hsucc : pc + 1 ∈ successors pc instr) (hafter : after instr st = ⟨d, init⟩) :
    Steps S act pc st instr stack r := by
  cases r with
  | error => exact .inl h
  | ok advance vm =>
    obtain ⟨rfl, hvm⟩ := h
    rw [Steps, hafter]
    exact ⟨pc, hsucc, hvm⟩

theorem Steps.of_runs {st : AbstractState} {instr : Instruction} {d : Nat} {x : VmM Bool}
    {stack : List Int} (hx : Runs S act pc init depth x d (· = true))
    (hvm : Within S act pc init depth vm) (hsucc : pc + 1 ∈ successors pc instr)
    (hafter : after instr st = ⟨d, init⟩) : Steps S act pc st instr stack (x.run vm) :=
  .of_ends (hx vm hvm) hsucc hafter

/-- Storing to a slot initialises it. -/
theorem Within.storeLocal {d slot : Nat} {value : Int} (hvm : Within S act pc init d vm)
    (hvalue : Proper S value) :
    Within S act pc (init.set slot true) d
      { vm with locals := vm.locals.set (act.frame.basePtr + slot) value } :=
  { hvm.writeLocal hvalue with
    initialised := fun hload i hi hinit hcell ↦ by
      by_cases hslot : slot = i
      · subst hslot
        rw [List.getElem?_set_self'] at hcell
        cases hold : vm.locals[act.frame.basePtr + slot]? with
        | none => simp [hold] at hcell
        | some old =>
          rw [hold] at hcell
          exact absurd (Option.some_inj.mp hcell) (hvalue hload)
      · rw [List.getElem?_set_ne hslot] at hinit
        rw [List.getElem?_set_ne (by omega)] at hcell
        exact hvm.initialised hload i hi hinit hcell }

/-- The parameter the instruction is about to read has been passed. -/
def ReadsDefined (S : Setting) (act : Activation) (slot : Nat) (vm : Vm) : Prop :=
  ¬S.lenient → .undefinedLocal ∉ S.traps → slot < exempt act.info act.frames →
    vm.locals[act.frame.basePtr + slot]? ≠ some i64Min

/-- A cell that turns out undefined has been recorded as such. -/
theorem predicted_undefinedLocal {slot : Nat} (hvm : Within S act pc init depth vm)
    (hslot : slot < act.info.localCount) (hread : ReadsDefined S act slot vm)
    (hcell : vm.locals[act.frame.basePtr + slot]? = some i64Min)
    (hrecorded : init[slot]? ≠ some true → .undefinedLocal ∈ S.traps) :
    S.lenient ∨ .undefinedLocal ∈ S.traps := by
  by_cases hload : S.lenient
  · exact .inl hload
  by_cases hlisted : .undefinedLocal ∈ S.traps
  · exact .inr hlisted
  by_cases hinit : init[slot]? = some true
  · have hexempt := hvm.initialised hload slot hslot hinit hcell
    exact absurd hcell (hread hload hlisted hexempt)
  · exact .inr (hrecorded hinit)

theorem steps_loadLocal {arg1 arg2 : Int32} (hraw : 0 ≤ arg1)
    (hslot : asUsize arg1 < act.info.localCount)
    (hrecorded : init[asUsize arg1]? ≠ some true → .undefinedLocal ∈ S.traps)
    (hread : ReadsDefined S act (asUsize arg1) vm) (hvm : Within S act pc init depth vm) :
    Steps S act pc ⟨depth, init⟩ ⟨.loadLocal, arg1, arg2⟩ vm.stack
      ((executeInstruction S.program .loadLocal arg1 arg2).run vm) := by
  obtain ⟨value, hget⟩ := hvm.exists_local hslot
  simp only [executeInstruction, EStateM.run_bind,
    run_currentLocalSlot hraw hvm.callStack hvm.lookup hslot (hvm.cell_lt hslot), run_readLocal hget]
  by_cases hundef : value = i64Min
  · rw [if_pos hundef]
    exact .inl (predicted_undefinedLocal hvm hslot hread (hundef ▸ hget) hrecorded)
  · rw [if_neg hundef]
    exact .of_runs (.bind (.push fun _ ↦ hundef) fun _ _ ↦ .pure rfl) hvm List.mem_cons_self rfl

theorem steps_storeLocal {arg1 arg2 : Int32} (hraw : 0 ≤ arg1)
    (hslot : asUsize arg1 < act.info.localCount) (hvm : Within S act pc init (depth + 1) vm) :
    Steps S act pc ⟨depth + 1, init⟩ ⟨.storeLocal, arg1, arg2⟩ vm.stack
      ((executeInstruction S.program .storeLocal arg1 arg2).run vm) := by
  obtain ⟨value, stack, hstack, hvalue, hrest⟩ := hvm.exists_cons
  have hcell := hvm.cell_lt hslot
  simp only [executeInstruction, EStateM.run_bind, run_pop hstack,
    run_currentLocalSlot hraw hrest.callStack hrest.lookup hslot hcell,
    run_writeLocal (Nat.lt_of_lt_of_le hcell hrest.locals)]
  exact ⟨pc, List.mem_cons_self, hrest.storeLocal hvalue⟩

/-- A division panics on the marker only, which is proper in a lenient setting only. -/
theorem steps_div {arg1 arg2 : Int32} (hzero : .divideByZero ∈ S.traps)
    (hvm : Within S act pc init (depth + 2) vm) :
    Steps S act pc ⟨depth + 2, init⟩ ⟨.div, arg1, arg2⟩ vm.stack
      ((executeInstruction S.program .div arg1 arg2).run vm) := by
  obtain ⟨b, stack, hstack, -, hrest⟩ := hvm.exists_cons
  obtain ⟨a, stack', hstack', ha, hrest'⟩ := hrest.exists_cons
  obtain rfl : stack = a :: stack' := hstack'
  simp only [executeInstruction, EStateM.run_bind, run_pop hstack,
    @run_pop { vm with stack := a :: stack' } a stack' rfl]
  split
  · exact .inl hzero
  split
  · next hover =>
    obtain ⟨rfl, rfl⟩ := hover
    exact .inr ⟨rfl, not_not.mp fun h ↦ ha h rfl, .inr ⟨rfl, stack', hstack⟩⟩
  · exact .of_runs (.bind (.push (proper_normalizeI32 _)) fun _ _ ↦ .pure rfl) hrest'
      List.mem_cons_self rfl

/-- A negation panics on the marker only. -/
theorem steps_neg {arg1 arg2 : Int32} (hvm : Within S act pc init (depth + 1) vm) :
    Steps S act pc ⟨depth + 1, init⟩ ⟨.neg, arg1, arg2⟩ vm.stack
      ((executeInstruction S.program .neg arg1 arg2).run vm) := by
  obtain ⟨a, stack, hstack, ha, hrest⟩ := hvm.exists_cons
  simp only [executeInstruction, EStateM.run_bind, run_pop hstack]
  split
  · next hover =>
    subst hover
    exact .inr ⟨rfl, not_not.mp fun h ↦ ha h rfl, .inl ⟨rfl, stack, hstack⟩⟩
  · exact .of_runs (.bind (.push (proper_normalizeI32 _)) fun _ _ ↦ .pure rfl) hrest
      List.mem_cons_self rfl

theorem Runs.arrayLoad {arg1 arg2 : Int32} (h : IsGlobalArray arg1 arg2)
    (hbounds : .arrayOutOfBounds ∈ S.traps) :
    Runs S act pc init (depth + 1) (executeInstruction S.program .arrayLoad arg1 arg2) (depth + 1)
      (· = true) := by
  refine .bind (.globalArrayRange h) fun range hrange ↦ .bind .pop fun raw _ ↦
    .bind (.arrayIndex hbounds) fun index hindex ↦ ?_
  subst hrange
  have hlast := h.2.2
  exact .bind (.readGlobal (by omega)) fun value hvalue ↦ .bind (.push hvalue) fun _ _ ↦ .pure rfl

theorem Runs.arrayStore {arg1 arg2 : Int32} (h : IsGlobalArray arg1 arg2)
    (hbounds : .arrayOutOfBounds ∈ S.traps) :
    Runs S act pc init (depth + 2) (executeInstruction S.program .arrayStore arg1 arg2) depth
      (· = true) := by
  refine .bind (.globalArrayRange h) fun range hrange ↦ .bind .pop fun value hvalue ↦
    .bind .pop fun raw _ ↦ .bind (.arrayIndex hbounds) fun index hindex ↦ ?_
  subst hrange
  have hlast := h.2.2
  exact .bind (.writeGlobal (by omega) hvalue) fun _ _ ↦ .pure rfl

/-- The elements read may be anything: a base may name cells that hold locals. -/
theorem Runs.localArrayLoad {arg1 arg2 : Int32} (hload : S.lenient) (hsize : 0 < arg2)
    (hraw : 0 ≤ arg1) (hslot : asUsize arg1 < act.info.localCount)
    (hbounds : .arrayOutOfBounds ∈ S.traps) :
    Runs S act pc init (depth + 1) (executeInstruction S.program .localArrayLoad arg1 arg2)
      (depth + 1) (· = true) := by
  refine .bind (.arraySize hsize) fun size hsize ↦ .bind .pop fun raw _ ↦
    .bind (.arrayIndex hbounds) fun index hindex ↦ .bind (.currentLocalSlot hraw hslot)
    fun cell hcell vm' hvm' ↦ ?_
  refine localArrayBase_bind hvm' (hcell ▸ hvm'.cell_lt hslot) hindex (fun _ ↦ .inl hload)
    fun base hbase ↦ ?_
  rw [EStateM.run_bind, run_readLocal (List.getElem?_eq_getElem hbase)]
  have hpush {value : Int} : Runs S act pc init depth (do Vm.push value; return true) (depth + 1)
      (· = true) := .bind (.push fun h ↦ absurd hload h) fun _ _ ↦ .pure rfl
  exact hpush vm' hvm'

theorem steps_localArrayStore {arg1 arg2 : Int32} (hsize : 0 < arg2) (hraw : 0 ≤ arg1)
    (hslot : asUsize arg1 < act.info.localCount) (hbounds : .arrayOutOfBounds ∈ S.traps)
    (hrecorded : init[asUsize arg1]? ≠ some true → .undefinedLocal ∈ S.traps)
    (hread : ∀ value index stack, vm.stack = value :: index :: stack → 0 ≤ index →
      index.toNat < asUsize arg2 → ReadsDefined S act (asUsize arg1) vm)
    (hvm : Within S act pc init (depth + 2) vm) :
    Steps S act pc ⟨depth + 2, init⟩ ⟨.localArrayStore, arg1, arg2⟩ vm.stack
      ((executeInstruction S.program .localArrayStore arg1 arg2).run vm) := by
  obtain ⟨value, stack, hstack, hvalue, hrest⟩ := hvm.exists_cons
  obtain ⟨index, stack', hstack', -, hrest'⟩ := hrest.exists_cons
  obtain rfl : stack = index :: stack' := hstack'
  simp only [executeInstruction, EStateM.run_bind, run_arraySize (Int32.le_of_lt hsize),
    run_pop hstack, @run_pop { vm with stack := index :: stack' } index stack' rfl]
  by_cases hindex : index < 0 ∨ index.toNat ≥ asUsize arg2
  · rw [run_arrayIndex_error hindex]
    exact .inl hbounds
  · rw [not_or, Int.not_lt, Nat.not_le] at hindex
    obtain ⟨hneg, hlt⟩ := hindex
    simp only [run_arrayIndex hneg hlt,
      run_currentLocalSlot hraw hrest'.callStack hrest'.lookup hslot (hrest'.cell_lt hslot)]
    refine .of_ends (localArrayBase_bind
      (f := fun base ↦ do writeLocal (base + index.toNat) value; return true)
      hrest' (hrest'.cell_lt hslot) hlt (fun hcell ↦ ?_) fun base hbase ↦ ?_) List.mem_cons_self rfl
    · exact predicted_undefinedLocal hvm hslot (hread value index stack' hstack hneg hlt) hcell
        hrecorded
    · rw [EStateM.run_bind, run_writeLocal hbase]
      exact ⟨rfl, hrest'.writeLocal hvalue⟩

/-- Both allocations append the array behind all cells. -/
theorem Runs.allocArray {arg1 : Int32} (arg2 : Int32) (h : 0 < arg1) :
    Runs S act pc init depth (executeInstruction S.program .allocArray arg1 arg2) (depth + 1)
      (· = true) := by
  refine .bind (.arraySize h) fun size _ vm' hvm' ↦ ?_
  have hmarks {top : Nat} (htop : top ≤ maxLocalSlots) :
      MarksBelow S top vm'.locals (vm'.locals ++ List.replicate size 0) := by
    intro _ cell hcell hmark
    have := hvm'.locals
    rwa [List.getElem?_append_left (by omega)] at hmark
  have hlimit := hvm'.limit
  have hpush : Runs S act pc init depth (do Vm.push vm'.locals.length; return true) (depth + 1)
      (· = true) := .bind (.push (proper_natCast _)) fun _ _ ↦ .pure rfl
  exact hpush
    { vm' with locals := vm'.locals ++ List.replicate size 0 } { hvm' with
      initialised := hvm'.initialised.of_locals (hmarks hlimit)
      suspended := hvm'.suspended.of_locals (hmarks (by omega))
      locals := hvm'.locals.trans (by simp) }

/-- Every opcode but the three that change the frames. -/
theorem steps_executeInstruction {st : AbstractState} {range : FunctionRange} {instr : Instruction}
    (hops : OperandsOk S.program range instr) (hinfo : range.info = act.info)
    (hdepth : pops instr ≤ st.stackDepth)
    (htraps : ∀ trap ∈ recordedTraps pc instr st, trap ∈ S.traps)
    (hvm : Within S act pc st.initializedLocals st.stackDepth vm)
    (hload : instr.opcode = .localArrayLoad → S.lenient)
    (hread : instr.opcode = .loadLocal → ReadsDefined S act (asUsize instr.arg1) vm)
    (hreadArray : instr.opcode = .localArrayStore → ∀ value index stack,
      vm.stack = value :: index :: stack → 0 ≤ index → index.toNat < asUsize instr.arg2 →
      ReadsDefined S act (asUsize instr.arg1) vm)
    (hframes : instr.opcode ≠ .call ∧ instr.opcode ≠ .return ∧ instr.opcode ≠ .halt) :
    Steps S act pc st instr vm.stack
      ((executeInstruction S.program instr.opcode instr.arg1 instr.arg2).run vm) := by
  obtain ⟨opcode, arg1, arg2⟩ := instr
  obtain ⟨depth, init⟩ := st
  have hdone {d : Nat} : Runs S act pc init d (pure true) d (· = true) := .pure rfl
  have hnext : pc + 1 ∈ [pc + 1] := List.mem_cons_self
  -- the values an opcode pops are there
  obtain ⟨d, rfl⟩ : ∃ d, depth = d + pops ⟨opcode, arg1, arg2⟩ := Nat.exists_eq_add_of_le' hdepth
  cases opcode with
  | call | «return» | halt => simp at hframes
  | loadConst => exact .of_runs (.bind (.push (proper_toInt arg1)) fun _ _ ↦ hdone) hvm hnext rfl
  | loadLocal =>
    refine steps_loadLocal hops.1 (hinfo ▸ hops.2) (fun hinit ↦ htraps _ ?_) (hread rfl) hvm
    simp only [recordedTraps, if_neg hinit, List.mem_singleton]
  | storeLocal => exact steps_storeLocal hops.1 (hinfo ▸ hops.2) hvm
  | loadGlobal =>
    refine .of_runs (.bind (.globalSlot hops) fun slot hslot ↦ ?_) hvm hnext rfl
    subst hslot
    exact .bind (.readGlobal hops.2) fun value hvalue ↦ .bind (.push hvalue) fun _ _ ↦ hdone
  | storeGlobal =>
    refine .of_runs (.bind (.globalSlot hops) fun slot hslot ↦ ?_) hvm hnext rfl
    subst hslot
    exact .bind .pop fun value hvalue ↦ .bind (.writeGlobal hops.2 hvalue) fun _ _ ↦ hdone
  | add | sub | mul => exact .of_runs (.binary fun _ _ ↦ proper_normalizeI32 _) hvm hnext rfl
  | eq | ne | lt | gt | le | ge | and | or =>
    exact .of_runs (.binary fun _ _ ↦ proper_flag _) hvm hnext rfl
  | div => exact steps_div (htraps _ List.mem_cons_self) hvm
  | neg => exact steps_neg hvm
  | not =>
    exact .of_runs (.bind .pop fun a _ ↦ .bind (.push (proper_flag _)) fun _ _ ↦ hdone) hvm hnext rfl
  | jump => exact ⟨asUsize arg1, List.mem_cons_self, { hvm with pc_eq := rfl }⟩
  | jumpIfFalse | jumpIfTrue =>
    obtain ⟨cond, stack, hstack, -, hrest⟩ := hvm.exists_cons
    simp only [executeInstruction, EStateM.run_bind, run_pop hstack]
    split
    · exact ⟨asUsize arg1, List.mem_cons_self, { hrest with pc_eq := rfl }⟩
    · exact ⟨pc, List.mem_cons_of_mem _ hnext, hrest⟩
  | arrayLoad => exact .of_runs (.arrayLoad hops (htraps _ List.mem_cons_self)) hvm hnext rfl
  | arrayStore => exact .of_runs (.arrayStore hops (htraps _ List.mem_cons_self)) hvm hnext rfl
  | localArrayLoad =>
    obtain ⟨hsize, hraw, hslot⟩ : 0 < arg2 ∧ IsLocal range arg1 := hops
    refine .of_runs (.localArrayLoad (hload rfl) hsize hraw (hinfo ▸ hslot) (htraps _ ?_)) hvm hnext
      rfl
    simp only [recordedTraps]
    split <;> simp
  | localArrayStore =>
    obtain ⟨hsize, hraw, hslot⟩ : 0 < arg2 ∧ IsLocal range arg1 := hops
    refine steps_localArrayStore hsize hraw (hinfo ▸ hslot) (htraps _ ?_) (fun hinit ↦ htraps _ ?_)
      (hreadArray rfl) hvm
    · simp only [recordedTraps]
      split <;> simp
    · simp only [recordedTraps, if_neg hinit, List.mem_cons, true_or]
  | arrayNew | allocArray => exact .of_runs (.allocArray arg2 hops) hvm hnext rfl
  | print => exact .of_runs (.bind .pop fun value _ vm' hvm' ↦ ⟨rfl, { hvm' with }⟩) hvm hnext rfl
  | pop => exact .of_runs (.bind .pop fun _ _ ↦ hdone) hvm hnext rfl
  | dup =>
    obtain ⟨value, stack, hstack, hvalue, -⟩ := hvm.exists_cons
    simp only [executeInstruction, EStateM.run_bind, EStateM.run_get, hstack]
    exact .of_runs (.bind (.push hvalue) fun _ _ ↦ hdone) hvm hnext rfl

/-! ### Calls and returns -/

/-- The arguments of a call become the first locals of the new frame. -/
theorem runs_copyArgs {newBase total count d : Nat} (hlimit : newBase + total ≤ maxLocalSlots)
    (hcount : count ≤ total) :
    EStateM.Triple
      (fun vm ↦ Within S act pc init (d + count) vm ∧ (¬S.lenient → ∀ slot, count ≤ slot →
        slot < total → vm.locals[newBase + slot]? ≠ some i64Min))
      (copyArgs newBase count)
      (fun _ vm ↦ Within S act pc init d vm ∧ (¬S.lenient → ∀ slot < total,
        vm.locals[newBase + slot]? ≠ some i64Min))
      fun e _ ↦ Predicted S e := by
  induction count with
  | zero =>
    rintro vm ⟨hvm, hproper⟩
    exact ⟨hvm, fun hload slot ↦ hproper hload slot (Nat.zero_le _)⟩
  | succ count ih =>
    rintro vm ⟨hvm, hproper⟩
    obtain ⟨value, stack, hstack, hvalue, hrest⟩ := hvm.exists_cons
    have hcell : newBase + count < vm.locals.length := by
      have := hvm.locals
      omega
    rw [copyArgs, EStateM.run_bind, run_pop hstack]
    simp only [EStateM.run_bind, @run_writeLocal { vm with stack := stack } value _ hcell]
    refine ih (by omega) _ ⟨hrest.writeLocal hvalue, fun hload slot hle hlt ↦ ?_⟩
    by_cases hslot : slot = count
    · subst hslot
      rw [List.getElem?_set_self hcell]
      exact fun h ↦ hvalue hload (Option.some_inj.mp h)
    · rw [List.getElem?_set_ne (by omega)]
      exact hproper hload slot (by omega) hlt

/-- Clearing the rest of the new frame touches neither the frames below nor the arguments. -/
theorem runs_clearLocals {newBase first count d params : Nat}
    (hlimit : newBase + first + count ≤ maxLocalSlots) (hparams : params ≤ first)
    (hbase : act.frame.basePtr + act.info.localCount ≤ newBase) :
    EStateM.Triple
      (fun vm ↦ Within S act pc init d vm ∧ (¬S.lenient → ∀ slot < params,
        vm.locals[newBase + slot]? ≠ some i64Min))
      (clearLocals newBase first count)
      (fun _ vm ↦ Within S act pc init d vm ∧ (¬S.lenient → ∀ slot < params,
        vm.locals[newBase + slot]? ≠ some i64Min))
      fun e _ ↦ Predicted S e := by
  induction count generalizing first with
  | zero => exact fun vm hvm ↦ hvm
  | succ count ih =>
    rintro vm ⟨hvm, hproper⟩
    have hcell : newBase + first < vm.locals.length := by
      have := hvm.locals
      omega
    have hmarks {top : Nat} (htop : top ≤ newBase) :
        MarksBelow S top vm.locals (vm.locals.set (newBase + first) i64Min) := by
      intro _ cell hlt hmark
      rwa [List.getElem?_set_ne (by omega)] at hmark
    rw [clearLocals, EStateM.run_bind, run_writeLocal hcell]
    refine ih (by omega) (by omega) _ ⟨{ hvm with
      initialised := hvm.initialised.of_locals (hmarks hbase)
      suspended := hvm.suspended.of_locals (hmarks (by omega))
      locals := hvm.locals.trans_eq List.length_set.symm }, fun hload slot hslot ↦ ?_⟩
    rw [List.getElem?_set_ne (by omega)]
    exact hproper hload slot hslot

/-- The entry of a function is certified. -/
theorem exists_at_entry (hverified : Verified S.program S.traps) {funcId : Nat} {func : FunctionInfo}
    (hfunc : S.program.functions.lookup funcId = some func) :
    ∃ st, At S funcId func.entryPc func st ∧ st.Le (entryState func) := by
  obtain ⟨range, hid, rfl, hstart, hcert⟩ := hverified.functions funcId func hfunc
  obtain ⟨st, hst, hle⟩ := hcert.entry
  exact ⟨st, ⟨hfunc, range, hid, rfl, hcert, hstart ▸ hst⟩, hle⟩

theorem lt_of_entryState {func : FunctionInfo} {st : AbstractState} {slot : Nat}
    (h : st.Le (entryState func)) (hslot : st.initializedLocals[slot]? = some true) :
    slot < func.paramCount := by
  have hentry := h.2 slot hslot
  rw [entryState, List.getElem?_map] at hentry
  cases hget : (List.range func.localCount)[slot]? with
  | none => simp [hget] at hentry
  | some i =>
    obtain ⟨hlt, rfl⟩ := List.getElem?_eq_some_iff.mp hget
    simpa [hget] using hentry

/-- A call enters the callee, with its caller waiting at the next instruction. -/
theorem safe_call {st st' : AbstractState} {arg1 arg2 : Int32}
    (hverified : Verified S.program S.traps) (hcallee : IsCallee S.program arg1 arg2)
    (hdepth : asUsize arg2 ≤ st.stackDepth)
    (hat : At S act.frame.funcId (pc + 1) act.info st')
    (hle : st'.Le (after ⟨.call, arg1, arg2⟩ st)) (hpc : pc + 1 < usizeMax)
    (hvm : Within S act pc st.initializedLocals st.stackDepth vm) :
    ((call S.program arg1 arg2).run vm).Post
      (fun advance vm' ↦ advance = false ∧ ∃ frame info, SafeIn S
        ⟨frame, act.frame :: act.frames, info, act.below + (st.stackDepth - asUsize arg2),
          act.below :: act.entries⟩ vm') fun e _ ↦ Predicted S e := by
  obtain ⟨hid, hargc, func, hfunc, hparams⟩ := hcallee
  obtain ⟨st₀, hentry, hle₀⟩ := exists_at_entry hverified hfunc
  have hcount : currentLocalCount S.program vm = act.info.localCount := by
    rw [currentLocalCount, hvm.callStack]
    simp only [List.head?_cons, Option.map_some, Option.getD_some, hvm.lookup]
  simp only [call, Int32.not_lt.mpr hid, Int32.not_lt.mpr hargc, hfunc, hparams, if_false, ne_eq,
    not_true_eq_false, EStateM.run_bind, EStateM.run_get]
  by_cases hframes : vm.callStack.length ≥ maxFrames
  · rw [if_pos hframes]
    trivial
  rw [if_neg hframes]
  simp only [EStateM.run_bind, EStateM.run_get, hcount]
  rw [hvm.callStack]
  dsimp only [List.head?_cons, Option.map_some, Option.getD_some]
  generalize hbase : act.frame.basePtr + act.info.localCount = newBase
  -- the two checks of the room for locals trap with a code that is always predicted
  cases hadd : checkedAdd newBase func.localCount with
  | none => trivial
  | some required =>
    obtain ⟨-, rfl⟩ := checkedAdd_eq_some.mp hadd
    by_cases hlimit : newBase + func.localCount > maxLocalSlots
    · simp only [hlimit, if_true]
      trivial
    simp only [hlimit, if_false]
    obtain ⟨hparamsLocals, -⟩ := hverified.slots _ _ hfunc
    obtain ⟨d, hd⟩ := Nat.exists_eq_add_of_le' hdepth
    rw [hparams] at hd
    have hdepth' : st'.stackDepth = d + 1 := by
      have hafter := hle.1
      simp only [after, pops, pushes, hparams] at hafter
      omega
    refine EStateM.Triple.bind (@runs_copyArgs _ _ _ _ _ func.paramCount _ d (by omega) le_rfl)
      (fun _ ↦ EStateM.Triple.bind (runs_clearLocals (by omega) le_rfl hbase.le) fun _ ↦ ?_) vm
      ⟨hd ▸ hvm, fun _ slot hge hlt ↦ absurd hlt (Nat.not_lt.mpr hge)⟩
    rintro vm₁ ⟨hvm₁, hargs⟩
    refine ⟨rfl, ⟨pc + 1, newBase, asUsize arg1⟩, func, st₀, hentry, ?_⟩
    have hdepth₀ : st₀.stackDepth = 0 := hle₀.1
    have hbelow : act.below + st'.stackDepth - 1 = act.below + (st.stackDepth - func.paramCount) := by
      omega
    have hcaller : Initialised S vm₁.locals act.frame act.frames act.info st'.initializedLocals :=
      fun hload slot hslot hinit ↦ hvm₁.initialised hload slot hslot (hle.2 slot hinit)
    -- the caller is suspended at the next instruction, whose depth counts the result
    have hsuspended := Suspended.cons (by omega) hat (by omega) hvm₁.limit hcaller hvm₁.suspended
    rw [hbase, hbelow] at hsuspended
    exact
      { callStack := by
          dsimp only
          rw [hvm₁.pc_eq, hvm₁.callStack]
        pc_eq := rfl
        lookup := hfunc
        limit := Nat.le_of_not_lt hlimit
        initialised := fun hload slot _ hinit hcell ↦
          absurd hcell (hargs hload slot (lt_of_entryState hle₀ hinit))
        suspended := hsuspended
        depth_le := by
          have := hvm₁.depth_le
          dsimp only
          omega
        depth_eq := fun hbalanced ↦ by
          have := hvm₁.depth_eq hbalanced
          dsimp only
          omega
        stack_le := hvm₁.stack_le
        locals := hvm₁.locals
        globals := hvm₁.globals
        stackProper := hvm₁.stackProper
        globalsProper := hvm₁.globalsProper }

/-- A return resumes the caller with the result on its stack, or ends the run. -/
theorem safe_ret {st : AbstractState} (hdepth : 1 ≤ st.stackDepth)
    (hvm : Within S act pc st.initializedLocals st.stackDepth vm)
    (hbalanced : S.balanced → act.frames ≠ [] → st.stackDepth = 1) :
    (ret.run vm).Post
      (fun advance vm' ↦ advance = false ∧ (act.frames = [] ∧ vm'.callStack = [] ∨
        ∃ caller callers below entries info, act.frames = caller :: callers ∧
          act.entries = below :: entries ∧
          SafeIn S ⟨caller, callers, info, below, entries⟩ vm'))
      fun e _ ↦ Predicted S e := by
  obtain ⟨d, hd⟩ := Nat.exists_eq_add_of_le' hdepth
  rw [hd] at hvm
  obtain ⟨value, stack, hstack, hvalue, hrest⟩ := hvm.exists_cons
  rw [ret, EStateM.run_bind, run_pop hstack]
  simp only [EStateM.run_bind, EStateM.run_get, hvm.callStack, EStateM.run_modify]
  by_cases hlt : stack.length < maxOperandStack
  · rw [@run_push { vm with stack := stack, callStack := act.frames } value hlt]
    -- the run ends with `main`, or the caller goes on with the value on top of its operands
    rcases hrest.suspended.cases_frames with ⟨hframes, hpc⟩ |
      ⟨caller, callers, below, entries, info, st', hframes, hentries, hpc, hat, hpos, hlimit, hinit,
        hsuspended, hbelow⟩
    · simp only [hpc, ne_eq, not_true_eq_false, if_false]
      exact ⟨rfl, .inl ⟨hframes, hframes⟩⟩
    · simp only [ne_eq, hpc, not_false_eq_true, if_true]
      refine ⟨rfl, .inr ⟨caller, callers, below, entries, info, hframes, hentries, st', hat, ?_⟩⟩
      exact
        { callStack := hframes
          pc_eq := rfl
          lookup := hat.lookup
          limit := hlimit
          initialised := hinit
          suspended := hsuspended
          depth_le := by
            have := hrest.depth_le
            simp only [List.length_cons] at this ⊢
            omega
          depth_eq := fun hb ↦ by
            have := hrest.depth_eq hb
            have hone := hbalanced hb (by rw [hframes]; exact List.cons_ne_nil _ _)
            simp only [List.length_cons] at this ⊢
            omega
          stack_le := hlt
          locals := hrest.locals
          globals := hrest.globals
          stackProper := List.forall_mem_cons.mpr ⟨hvalue, hrest.stackProper⟩
          globalsProper := hrest.globalsProper }
  · rw [@run_push_overflow { vm with stack := stack, callStack := act.frames } value
      (Nat.le_of_not_lt hlt)]
    trivial

end Instructions

/-! ## Steps -/

/-- The step from `vm` loads a parameter of the initial frame that has not been set. -/
def ReadsUnsetParameter (program : CompiledProgram) (vm : Vm) : Prop :=
  ¬(vm.maxCycles > 0 ∧ vm.cycles ≥ vm.maxCycles) ∧ ∃ frame info instr,
    vm.callStack = [frame] ∧ program.functions.lookup frame.funcId = some info ∧
    program.instructions[vm.pc]? = some instr ∧ asUsize instr.arg1 < info.paramCount ∧
    vm.locals[frame.basePtr + asUsize instr.arg1]? = some i64Min ∧
    (instr.opcode = .loadLocal ∨ instr.opcode = .localArrayStore ∧ ∃ value index stack,
      vm.stack = value :: index :: stack ∧ 0 ≤ index ∧ index.toNat < asUsize instr.arg2)

/-- The heights of the stack at the entries of the active frames after `instr`, when the stack had
`height` values before it. -/
def nextEntries (instr : Instruction) (height : Nat) (entries : List Nat) : List Nat :=
  match instr.opcode with
  | .call => (height - asUsize instr.arg2) :: entries
  | .return => entries.tail
  | _ => entries

section Steps

variable {act : Activation} {pc depth : Nat} {init : List Bool}

theorem Within.mono {st st' : AbstractState}
    (h : Within S act pc st.initializedLocals st.stackDepth vm) (hle : st'.Le st) :
    Within S act pc st'.initializedLocals st'.stackDepth vm :=
  { h with
    initialised := fun hload slot hslot hinit ↦ h.initialised hload slot hslot (hle.2 slot hinit)
    depth_le := hle.1 ▸ h.depth_le
    depth_eq := fun hb ↦ hle.1 ▸ h.depth_eq hb }

/-- The assumptions of the setting, for the step from `vm`. -/
structure Assumed (S : Setting) (vm : Vm) : Prop where
  load : ∀ instr, S.program.instructions[vm.pc]? = some instr → instr.opcode = .localArrayLoad →
    S.lenient
  read : ¬S.lenient → .undefinedLocal ∉ S.traps → ¬ReadsUnsetParameter S.program vm
  balanced : S.balanced → ¬(vm.maxCycles > 0 ∧ vm.cycles ≥ vm.maxCycles) →
    ∀ act st, act.frames ≠ [] → At S act.frame.funcId vm.pc act.info st →
    Within S act vm.pc st.initializedLocals st.stackDepth vm →
    (S.program.instructions[vm.pc]?).map Instruction.opcode = some .return → st.stackDepth = 1

theorem ReadsDefined.of_not (vm : Vm) {instr : Instruction}
    (hlimit : ¬(vm.maxCycles > 0 ∧ vm.cycles ≥ vm.maxCycles))
    (hread : ¬S.lenient → .undefinedLocal ∉ S.traps → ¬ReadsUnsetParameter S.program vm)
    (hinstr : S.program.instructions[vm.pc]? = some instr)
    (hvm : Within S act pc init depth vm)
    (hop : instr.opcode = .loadLocal ∨ instr.opcode = .localArrayStore ∧ ∃ value index stack,
      vm.stack = value :: index :: stack ∧ 0 ≤ index ∧ index.toNat < asUsize instr.arg2) :
    ReadsDefined S act (asUsize instr.arg1) vm := by
  intro hlenient hlisted hexempt hcell
  cases hframes : act.frames with
  | cons frame frames =>
    rw [hframes] at hexempt
    exact absurd hexempt (Nat.not_lt_zero _)
  | nil =>
    rw [hframes] at hexempt
    exact hread hlenient hlisted ⟨hlimit, act.frame, act.info, instr, hframes ▸ hvm.callStack,
      hvm.lookup, hinstr, hexempt, hcell, hop⟩

/-- What a step from a safe state comes to. -/
def StepsSafely (S : Setting) (act : Activation) (vm : Vm) (instr : Instruction) :
    Vm ⊕ (VmHalt × Vm) → Prop
  | .inl vm' => ∃ act', SafeIn S act' vm' ∧ (S.balanced →
      act'.below :: act'.entries = nextEntries instr vm.stack.length (act.below :: act.entries))
  | .inr (.result result, _) =>
    result.success = true ∨ Predicted S (.trap result.trapCode result.trapMessage)
  | .inr (.panic, _) => S.lenient ∧ OverflowsOnMarker instr vm.stack

/-- The loop goes on from the state after an instruction. -/
theorem StepsSafely.of_next {act' : Activation} {instr : Instruction} {advance : Bool}
    (h : SafeIn S act' (if advance then { vm' with pc := vm'.pc + 1 } else vm'))
    (hentries : S.balanced →
      act'.below :: act'.entries = nextEntries instr vm.stack.length (act.below :: act.entries)) :
    StepsSafely S act vm instr (afterInstruction vm instr vm' advance) := by
  rw [afterInstruction]
  generalize (if advance then { vm' with pc := vm'.pc + 1 } else vm') = after at h
  obtain ⟨st, hat, hvm⟩ := h
  have hnonempty : after.callStack ≠ [] := by
    rw [hvm.callStack]
    exact List.cons_ne_nil _ _
  dsimp only
  rw [if_neg hnonempty]
  exact ⟨act', ⟨st, hat, { hvm with }⟩, hentries⟩

/-- The run ends once there is no frame left. -/
theorem StepsSafely.of_end {instr : Instruction} {advance : Bool} (h : vm'.callStack = []) :
    StepsSafely S act vm instr (afterInstruction vm instr vm' advance) := by
  rw [afterInstruction]
  have hempty : (if advance then { vm' with pc := vm'.pc + 1 } else vm').callStack = [] := by
    split <;> exact h
  generalize (if advance then { vm' with pc := vm'.pc + 1 } else vm') = after at hempty
  dsimp only
  rw [if_pos hempty]
  exact .inl rfl

/-- Executing the instruction at the program counter of a safe state. -/
theorem post_executeInstruction {st : AbstractState} {range : FunctionRange}
    {instr : Instruction} (hverified : Verified S.program S.traps)
    (hid : range.id = act.frame.funcId) (hinfo : range.info = act.info)
    (hcert : Certified S.program range S.traps (callGraph S.program)
      (stateAt S.program act.frame.funcId))
    (hst : stateAt S.program act.frame.funcId vm.pc = some st)
    (hinstr : S.program.instructions[vm.pc]? = some instr)
    (hvm : Within S act vm.pc st.initializedLocals st.stackDepth vm) (hassumed : Assumed S vm)
    (hlimit : ¬(vm.maxCycles > 0 ∧ vm.cycles ≥ vm.maxCycles)) :
    ((executeInstruction S.program instr.opcode instr.arg1 instr.arg2).run
      { vm with cycles := vm.cycles + 1 }).Post
      (fun advance vm' ↦ StepsSafely S act vm instr (afterInstruction vm instr vm' advance))
      fun e _ ↦ Stops S instr vm.stack e := by
  obtain ⟨instr', hinstr', hops, hdepth, htraps, hsucc, -⟩ := hcert.step _ st hst
  obtain rfl := Option.some_inj.mp (hinstr.symm.trans hinstr')
  have hat (pc' : Nat) (st' : AbstractState)
      (h : stateAt S.program act.frame.funcId pc' = some st') :
      At S act.frame.funcId pc' act.info st' := ⟨hvm.lookup, range, hid, hinfo, hcert, h⟩
  have hcycle : Within S act vm.pc st.initializedLocals st.stackDepth
      { vm with cycles := vm.cycles + 1 } := { hvm with }
  have hpc : vm.pc < S.program.instructions.length := (List.getElem?_eq_some_iff.mp hinstr).1
  have hcount := hverified.count
  -- the three opcodes that change frames; a call enters another activation
  by_cases hcall : instr.opcode = .call
  · obtain ⟨opcode, arg1, arg2⟩ := instr
    obtain rfl : opcode = .call := hcall
    obtain ⟨st', hst', hle⟩ := hsucc (vm.pc + 1) List.mem_cons_self
    have hlimits : maxInstructions < usizeMax := by decide
    refine (safe_call hverified hops hdepth (hat _ st' hst') hle (by omega) hcycle).mono
      (fun advance vm' h ↦ ?_) fun _ _ h ↦ .inl h
    obtain ⟨rfl, frame, info, hsafe⟩ := h
    refine .of_next hsafe fun hb ↦ ?_
    have hheight := hvm.depth_eq hb
    have hargs : asUsize arg2 ≤ st.stackDepth := hdepth
    dsimp only [nextEntries]
    rw [hheight, Nat.add_sub_assoc hargs]
  by_cases hret : instr.opcode = .return
  · obtain ⟨opcode, arg1, arg2⟩ := instr
    obtain rfl : opcode = .return := hret
    refine (safe_ret hdepth hcycle fun hb hframes ↦ ?_).mono (fun advance vm' h ↦ ?_) fun _ _ h ↦ .inl h
    · exact hassumed.balanced hb hlimit act st hframes (hat _ st hst) hvm (by rw [hinstr]; rfl)
    · obtain ⟨rfl, ⟨-, hend⟩ | ⟨caller, callers, below, entries, info, -, hentries, hsafe⟩⟩ := h
      · exact .of_end hend
      -- the caller goes on at the height it entered with
      · refine .of_next hsafe fun _ ↦ ?_
        dsimp only [nextEntries]
        rw [List.tail_cons, hentries]
  by_cases hhalt : instr.opcode = .halt
  · obtain ⟨opcode, arg1, arg2⟩ := instr
    obtain rfl : opcode = .halt := hhalt
    have hend : EStateM.Triple (fun vm' : Vm ↦ vm'.callStack = [])
        (do push (vm.stack.head?.getD 0); return false)
        (fun advance vm' ↦ StepsSafely S act vm ⟨.halt, arg1, arg2⟩
          (afterInstruction vm ⟨.halt, arg1, arg2⟩ vm' advance))
        fun e _ ↦ Stops S ⟨.halt, arg1, arg2⟩ vm.stack e := by
      intro vm' h
      by_cases hroom : vm'.stack.length < maxOperandStack
      · rw [EStateM.run_bind, run_push hroom]
        exact StepsSafely.of_end h
      · rw [EStateM.run_bind, run_push_overflow (Nat.le_of_not_lt hroom)]
        exact .inl trivial
    exact hend { vm with cycles := vm.cycles + 1, stack := vm.stack.tail, callStack := [] } rfl
  -- every other opcode stays in the activation and leads to a successor with a state
  have hexec := steps_executeInstruction hops hinfo hdepth htraps hcycle (hassumed.load instr hinstr)
    (fun hop ↦ ReadsDefined.of_not vm hlimit hassumed.read hinstr hvm (.inl hop))
    (fun hop value index stack hstack hneg hlt ↦ ReadsDefined.of_not vm hlimit hassumed.read
      hinstr hvm (.inr ⟨hop, value, index, stack, hstack, hneg, hlt⟩)) ⟨hcall, hret, hhalt⟩
  refine hexec.mono (fun advance vm' h ↦ ?_) fun _ _ h ↦ h
  obtain ⟨pc', hmem, hvm'⟩ := h
  obtain ⟨st', hst', hle⟩ := hsucc _ hmem
  have hentries : nextEntries instr vm.stack.length (act.below :: act.entries) =
      act.below :: act.entries := by
    rw [nextEntries]
    split <;> first | rfl | contradiction
  cases advance with
  | false =>
    obtain rfl := hvm'.pc_eq
    exact .of_next ⟨st', hat _ st' hst', hvm'.mono hle⟩ fun _ ↦ hentries.symm
  | true =>
    obtain rfl := hvm'.pc_eq
    refine .of_next ⟨st', hat _ st' hst', ?_⟩ fun _ ↦ hentries.symm
    exact (show Within S act (vm'.pc + 1) _ _ { vm' with pc := vm'.pc + 1 } from
      { hvm' with pc_eq := rfl }).mono hle

theorem stepsSafely (hverified : Verified S.program S.traps) (h : SafeIn S act vm)
    (hassumed : Assumed S vm) : ∃ instr, S.program.instructions[vm.pc]? = some instr ∧
      StepsSafely S act vm instr (step S.program vm) := by
  obtain ⟨st, ⟨hlookup, range, hid, hinfo, hcert, hst⟩, hvm⟩ := h
  obtain ⟨instr, hinstr, -⟩ := hcert.step _ st hst
  refine ⟨instr, hinstr, ?_⟩
  rw [step]
  by_cases hlimit : vm.maxCycles > 0 ∧ vm.cycles ≥ vm.maxCycles
  · rw [if_pos hlimit]
    exact .inr trivial
  rw [if_neg hlimit, hinstr]
  have hpost := post_executeInstruction hverified hid hinfo hcert hst hinstr hvm hassumed hlimit
  dsimp only
  split
  · next hrun =>
    rw [hrun] at hpost
    exact hpost
  · next hrun =>
    rw [hrun] at hpost
    exact .inr (hpost.resolve_right fun h ↦ nomatch h.1)
  · next hrun =>
    rw [hrun] at hpost
    exact (hpost.resolve_left id).2

end Steps

/-! ## Runs -/

section Runs

variable {program : CompiledProgram} {maxCycles : Nat} {trace : Option (List TraceEvent)}

/-- A new machine with the given options. -/
def init (maxCycles : Nat) (trace : Option (List TraceEvent)) : Vm :=
  { new with maxCycles := maxCycles, trace := trace }

/-- `vm` is a state of the loop of `run`. -/
def Reached (program : CompiledProgram) (maxCycles : Nat) (trace : Option (List TraceEvent))
    (vm : Vm) : Prop :=
  ∃ vm₀, start program (init maxCycles trace) = .inl vm₀ ∧ Stepping.Reaches (step program) vm₀ vm

/-- What a check finds along a run that ends holds of every state of its loop. -/
theorem Reached.of_checked {check : Vm → Bool} {fuel : Nat} {vm₀ : Vm}
    (hstart : start program (init maxCycles trace) = .inl vm₀)
    (hcheck : Stepping.checked (step program) check fuel vm₀ = true)
    (h : Reached program maxCycles trace vm) : check vm = true := by
  obtain ⟨vm₁, hstart₁, hreaches⟩ := h
  obtain rfl := Sum.inl.inj (hstart₁.symm.trans hstart)
  exact hreaches.of_checked hcheck

/-- The functions of the program are keyed by their own ids. -/
def KeyedById (program : CompiledProgram) : Prop :=
  ∀ id info, program.functions.lookup id = some info → info.id = id

theorem keyedById_of_entries (h : ∀ entry ∈ program.functions.entries, entry.2.id = entry.1) :
    KeyedById program :=
  fun _ _ hinfo ↦ h _ (AList.mem_lookup_iff.mp hinfo)

/-- A verified program whose functions are keyed by their ids passes the preflight. -/
theorem start_eq {traps : List TrapCode} (maxCycles : Nat) (trace : Option (List TraceEvent))
    (hverified : Verified program traps)
    (hkeys : KeyedById program) :
    ∃ info, program.functions.lookup program.mainFuncId = some info ∧
      start program (init maxCycles trace) = .inl { init maxCycles trace with
        pc := info.entryPc
        callStack := [⟨usizeMax, 0, program.mainFuncId⟩] } := by
  obtain ⟨info, hmain⟩ := hverified.main
  refine ⟨info, hmain, ?_⟩
  rw [start, validate_of_verified hverified, hmain]
  dsimp only
  rw [if_neg (Nat.not_lt.mpr (hverified.slots _ _ hmain).2), hkeys _ _ hmain]
  rfl

theorem safe_start (maxCycles : Nat) (trace : Option (List TraceEvent))
    (hverified : Verified S.program S.traps)
    (hkeys : KeyedById S.program) :
    ∃ vm₀ frame info, start S.program (init maxCycles trace) = .inl vm₀ ∧
      SafeIn S ⟨frame, [], info, 0, []⟩ vm₀ := by
  obtain ⟨info, hmain, hstart⟩ := start_eq maxCycles trace hverified hkeys
  obtain ⟨st, hat, hle⟩ := exists_at_entry hverified hmain
  refine ⟨_, ⟨usizeMax, 0, S.program.mainFuncId⟩, info, hstart, st, hat, ?_⟩
  rw [show st.stackDepth = 0 from hle.1]
  exact
    { callStack := rfl
      pc_eq := rfl
      lookup := hmain
      limit := (Nat.zero_add _).trans_le (hverified.slots _ _ hmain).2
      initialised := fun _ _ _ hinit _ ↦ lt_of_entryState hle hinit
      suspended := .nil
      depth_le := Nat.le_refl 0
      depth_eq := fun _ ↦ rfl
      stack_le := Nat.zero_le _
      locals := List.length_replicate.ge
      globals := List.length_replicate
      stackProper := fun _ hmem ↦ absurd hmem List.not_mem_nil
      globalsProper := fun value hmem ↦ List.eq_of_mem_replicate hmem ▸ proper_natCast 0 }

/-- **The run lemma.** As long as its assumptions hold, a run stays safe. -/
theorem safe_reached (hverified : Verified S.program S.traps)
    (hkeys : KeyedById S.program)
    (hassumed : ∀ vm, Reached S.program maxCycles trace vm → Assumed S vm)
    (h : Reached S.program maxCycles trace vm) : Safe S vm := by
  obtain ⟨vm₀, hstart, hreaches⟩ := h
  have hreached {vm : Vm} (h : Stepping.Reaches (step S.program) vm₀ vm) :
      Reached S.program maxCycles trace vm := ⟨vm₀, hstart, h⟩
  induction hreaches with
  | refl =>
    obtain ⟨vm₁, frame, info, hstart₁, hsafe⟩ :=
      safe_start maxCycles trace hverified hkeys
    obtain rfl := Sum.inl.inj (hstart.symm.trans hstart₁)
    exact ⟨_, hsafe⟩
  | tail hst hstep ih =>
    obtain ⟨act, hsafe⟩ := ih
    obtain ⟨instr, -, hnext⟩ := stepsSafely hverified hsafe (hassumed _ (hreached hst))
    rw [hstep] at hnext
    exact ⟨_, hnext.choose_spec.1⟩

/-- The end of a run. -/
theorem exists_reached_of_runFull {fuel : Nat} {halt : VmHalt}
    (h : runFull program fuel (init maxCycles trace) = some (halt, vm)) :
    (∃ result, start program (init maxCycles trace) = .inr result ∧ halt = .result result) ∨
      ∃ vm', Reached program maxCycles trace vm' ∧ step program vm' = .inr (halt, vm) := by
  rw [runFull] at h
  split at h
  · next result hstart =>
    cases h
    exact .inl ⟨result, hstart, rfl⟩
  · next vm₀ hstart =>
    obtain ⟨vm', hreaches, hstep⟩ := Stepping.exists_reaches_of_run h
    exact .inr ⟨vm', ⟨vm₀, hstart, hreaches⟩, hstep⟩

end Runs

end Vm

end MiniLang
