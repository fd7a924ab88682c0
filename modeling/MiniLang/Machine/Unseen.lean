import MiniLang.Machine.VmFrames

/-!
# Changes the operations on values do not see

Most operations of the reference machine look at the operand stack, the locals, the globals and the
output alone. A change of the other parts of the state commutes with them, and an instruction that
uses nothing else does the same before and after the change.

## Changes

A change `u` is `Unseen` if it keeps these four fields and commutes with setting them; it may do
what it likes to the program counter, the frames, the cycles and the trace. One set of lemmas serves
two changes: the one of cycles, limit and trace, which no instruction sees, and the one that moves
return positions and the program counter, which only jumps, calls and returns see.

For those three the change is told what to do. A jump goes to the address that corresponds to the
old one, and a call and a return need of a program with other entry points that its functions are
otherwise the same.
-/

namespace MiniLang

open EStateM

namespace Vm

variable {program program' : CompiledProgram} {u : Vm → Vm}

/-- `u` leaves the values alone and does not depend on them. -/
structure Unseen (u : Vm → Vm) : Prop where
  stack : ∀ vm, (u vm).stack = vm.stack
  locals : ∀ vm, (u vm).locals = vm.locals
  globals : ∀ vm, (u vm).globals = vm.globals
  output : ∀ vm, (u vm).output = vm.output
  withStack : ∀ vm stack, { u vm with stack := stack } = u { vm with stack := stack }
  withLocals : ∀ vm locals, { u vm with locals := locals } = u { vm with locals := locals }
  withGlobals : ∀ vm globals, { u vm with globals := globals } = u { vm with globals := globals }
  withOutput : ∀ vm output, { u vm with output := output } = u { vm with output := output }

theorem blind_trap {α : Type} (code : TrapCode) (message : String) :
    Blind u (trap code message : VmM α) := .throw _

theorem blind_arraySize (raw : Int32) : Blind u (arraySize raw) := .ite (blind_trap _ _) (.pure _)

theorem blind_arrayIndex (raw : Int) (size : Nat) : Blind u (arrayIndex raw size) :=
  .ite (blind_trap _ _) (.pure _)

/-- A jump to an address and its counterpart. -/
theorem commutes_jump {target target' : Nat}
    (hpc : ∀ vm, { u vm with pc := target' } = u { vm with pc := target }) :
    Commutes u (do
      modify fun vm : Vm ↦ { vm with pc := target }
      return false : VmM Bool) (do
      modify fun vm : Vm ↦ { vm with pc := target' }
      return false) :=
  .bind (.modify hpc) fun _ ↦ Blind.pure _

namespace Unseen

variable (h : Unseen u)
include h

theorem pop : Blind u pop := by
  refine .get_bind (fun vm ↦ by simp only [h.stack]) fun vm ↦ ?_
  split
  · exact blind_trap _ _
  · exact .bind (.modify fun _ ↦ h.withStack _ _) fun _ ↦ .pure _

theorem push (value : Int) : Blind u (push value) := by
  refine .get_bind (fun vm ↦ by simp only [h.stack]) fun vm ↦ .ite (blind_trap _ _) ?_
  refine .modify fun vm ↦ ?_
  rw [h.stack]
  exact h.withStack _ _

theorem readLocal (slot : Nat) : Blind u (readLocal slot) := by
  refine .get_bind (fun vm ↦ by simp only [h.locals]) fun vm ↦ ?_
  split
  · exact .pure _
  · exact .throw _

theorem writeLocal (slot : Nat) (value : Int) : Blind u (writeLocal slot value) := by
  refine .get_bind (fun vm ↦ by simp only [h.locals]) fun vm ↦ .ite ?_ (.throw _)
  refine .modify fun vm ↦ ?_
  rw [h.locals]
  exact h.withLocals _ _

theorem readGlobal (slot : Nat) : Blind u (readGlobal slot) := by
  refine .get_bind (fun vm ↦ by simp only [h.globals]) fun vm ↦ ?_
  split
  · exact .pure _
  · exact .throw _

theorem writeGlobal (slot : Nat) (value : Int) : Blind u (writeGlobal slot value) := by
  refine .get_bind (fun vm ↦ by simp only [h.globals]) fun vm ↦ .ite ?_ (.throw _)
  refine .modify fun vm ↦ ?_
  rw [h.globals]
  exact h.withGlobals _ _

theorem globalSlot (raw : Int32) : Blind u (globalSlot raw) := by
  refine .ite (blind_trap _ _) (.get_bind (fun vm ↦ by simp only [h.globals]) fun vm ↦ ?_)
  exact .ite (blind_trap _ _) (.pure _)

theorem globalArrayRange (raw rawSize : Int32) : Blind u (globalArrayRange raw rawSize) := by
  refine .bind (h.globalSlot raw) fun base ↦ .bind (blind_arraySize rawSize) fun size ↦ ?_
  split
  · exact blind_trap _ _
  · refine .get_bind (fun vm ↦ by simp only [h.globals]) fun vm ↦ ?_
    exact .ite (blind_trap _ _) (.pure _)

theorem localArrayBase (slot size : Nat) : Blind u (localArrayBase slot size) := by
  refine .bind (h.readLocal slot) fun base ↦ .ite (blind_trap _ _) (.ite (blind_trap _ _) ?_)
  dsimp only
  split
  · exact blind_trap _ _
  · refine .get_bind (fun vm ↦ by simp only [h.locals]) fun vm ↦ ?_
    exact .ite (blind_trap _ _) (.pure _)

theorem binary (f : Int → Int → Int) : Blind u (binary f) :=
  .bind h.pop fun _ ↦ .bind h.pop fun _ ↦ .bind (h.push _) fun _ ↦ .pure _

theorem copyArgs (newBase count : Nat) : Blind u (copyArgs newBase count) := by
  induction count with
  | zero => exact .pure _
  | succ count ih => exact .bind h.pop fun _ ↦ .bind (h.writeLocal _ _) fun _ ↦ ih

theorem clearLocals (newBase first count : Nat) : Blind u (clearLocals newBase first count) := by
  induction count generalizing first with
  | zero => exact .pure _
  | succ count ih => exact .bind (h.writeLocal _ _) fun _ ↦ ih _

/-! ## Instructions -/

/-- The instructions that do not transfer control. -/
theorem executeInstruction {opcode : Opcode} (arg1 arg2 : Int32)
    (hslot : Commutes u (currentLocalSlot program arg1) (currentLocalSlot program' arg1))
    (hop : opcode ∉ [.jump, .jumpIfFalse, .jumpIfTrue, .call, .return, .halt]) :
    Commutes u (executeInstruction program opcode arg1 arg2)
      (executeInstruction program' opcode arg1 arg2) := by
  have hdone : Blind u (pure true : VmM Bool) := .pure true
  cases opcode with
  | jump | jumpIfFalse | jumpIfTrue | call | «return» | halt => simp at hop
  | loadConst => exact .bind (h.push _) fun _ ↦ hdone
  | loadLocal =>
    exact .bind hslot fun _ ↦ .bind (h.readLocal _) fun _ ↦
      .ite (blind_trap _ _) (.bind (h.push _) fun _ ↦ hdone)
  | storeLocal =>
    exact .bind h.pop fun _ ↦ .bind hslot fun _ ↦ .bind (h.writeLocal _ _) fun _ ↦ hdone
  | loadGlobal =>
    exact .bind (h.globalSlot arg1) fun _ ↦ .bind (h.readGlobal _) fun _ ↦
      .bind (h.push _) fun _ ↦ hdone
  | storeGlobal =>
    exact .bind (h.globalSlot arg1) fun _ ↦ .bind h.pop fun _ ↦
      .bind (h.writeGlobal _ _) fun _ ↦ hdone
  | add | sub | mul | eq | ne | lt | gt | le | ge | and | or => exact h.binary _
  | div =>
    exact .bind h.pop fun _ ↦ .bind h.pop fun _ ↦ .ite (blind_trap _ _)
      (.ite (Blind.throw _) (.bind (h.push _) fun _ ↦ hdone))
  | neg =>
    exact .bind h.pop fun _ ↦ .ite (Blind.throw _) (.bind (h.push _) fun _ ↦ hdone)
  | not => exact .bind h.pop fun _ ↦ .bind (h.push _) fun _ ↦ hdone
  | arrayLoad =>
    exact .bind (h.globalArrayRange arg1 arg2) fun _ ↦ .bind h.pop fun _ ↦
      .bind (blind_arrayIndex _ _) fun _ ↦ .bind (h.readGlobal _) fun _ ↦
      .bind (h.push _) fun _ ↦ hdone
  | arrayStore =>
    exact .bind (h.globalArrayRange arg1 arg2) fun _ ↦ .bind h.pop fun _ ↦ .bind h.pop fun _ ↦
      .bind (blind_arrayIndex _ _) fun _ ↦ .bind (h.writeGlobal _ _) fun _ ↦ hdone
  | localArrayLoad =>
    exact .bind (blind_arraySize arg2) fun _ ↦ .bind h.pop fun _ ↦
      .bind (blind_arrayIndex _ _) fun _ ↦ .bind hslot fun _ ↦
      .bind (h.localArrayBase _ _) fun _ ↦ .bind (h.readLocal _) fun _ ↦
      .bind (h.push _) fun _ ↦ hdone
  | localArrayStore =>
    exact .bind (blind_arraySize arg2) fun _ ↦ .bind h.pop fun _ ↦ .bind h.pop fun _ ↦
      .bind (blind_arrayIndex _ _) fun _ ↦ .bind hslot fun _ ↦
      .bind (h.localArrayBase _ _) fun _ ↦ .bind (h.writeLocal _ _) fun _ ↦ hdone
  | arrayNew | allocArray =>
    refine .bind (blind_arraySize arg1) fun size ↦ .get_bind fun vm ↦ ?_
    rw [h.locals]
    refine .bind (.modify fun vm ↦ ?_) fun _ ↦ .bind (h.push _) fun _ ↦ hdone
    rw [h.locals]
    exact h.withLocals _ _
  | print =>
    refine .bind h.pop fun value ↦ .bind (.modify fun vm ↦ ?_) fun _ ↦ hdone
    rw [h.output]
    exact h.withOutput _ _
  | pop => exact .bind h.pop fun _ ↦ hdone
  | dup =>
    refine Blind.get_bind (fun vm ↦ by simp only [h.stack]) fun vm ↦ ?_
    split
    · exact blind_trap _ _
    · exact .bind (h.push _) fun _ ↦ hdone

/-- The jumps. -/
theorem executeInstruction_jump {opcode : Opcode} {arg1 arg1' : Int32} (arg2 : Int32)
    (hpc : ∀ vm, { u vm with pc := asUsize arg1' } = u { vm with pc := asUsize arg1 })
    (hop : opcode ∈ [.jump, .jumpIfFalse, .jumpIfTrue]) :
    Commutes u (Vm.executeInstruction program opcode arg1 arg2)
      (Vm.executeInstruction program' opcode arg1' arg2) := by
  cases opcode with
  | jump => exact commutes_jump hpc
  | jumpIfFalse | jumpIfTrue =>
    exact .bind h.pop fun _ ↦ .ite (commutes_jump hpc) (Blind.pure _)
  | _ => simp at hop

theorem executeInstruction_halt (arg1 arg2 : Int32)
    (hclear : ∀ vm stack, { u vm with stack := stack, callStack := [] } =
      u { vm with stack := stack, callStack := [] }) :
    Commutes u (Vm.executeInstruction program .halt arg1 arg2)
      (Vm.executeInstruction program' .halt arg1 arg2) := by
  refine .get_bind fun vm ↦ ?_
  rw [h.stack]
  refine .bind (.modify fun vm ↦ ?_) fun _ ↦ .bind (h.push _) fun _ ↦ Blind.pure _
  rw [h.stack]
  exact hclear vm _

end Unseen

/-! ## Frames -/

/-- The part of a frame that says where its slots are. -/
def frameSlots (frame : CallFrame) : Nat × Nat := (frame.basePtr, frame.funcId)

/-- The functions of `program'` are those of `program`, entered at `entry`. -/
def Reentered (entry : FunctionInfo → Nat) (program program' : CompiledProgram) : Prop :=
  ∀ id, program'.functions.lookup id =
    (program.functions.lookup id).map fun func ↦ { func with entryPc := entry func }

variable {entry : FunctionInfo → Nat} {vm : Vm}

theorem commutes_currentLocalSlot (hlookup : Reentered entry program program')
    (hframes : ∀ vm, (u vm).callStack.map frameSlots = vm.callStack.map frameSlots)
    (raw : Int32) :
    Commutes u (currentLocalSlot program raw) (currentLocalSlot program' raw) := by
  refine .ite (blind_trap _ _) (.get_bind fun vm ↦ ?_)
  have hvm := hframes vm
  cases hframe : vm.callStack with
  | nil =>
    rw [hframe] at hvm
    rw [List.map_eq_nil_iff.mp hvm]
    exact blind_trap _ _
  | cons frame frames =>
    rw [hframe] at hvm
    obtain ⟨frame', frames', hframe', hslots, -⟩ := List.map_eq_cons_iff.mp hvm
    obtain ⟨hbase, hid⟩ := Prod.mk.inj hslots
    rw [hframe']
    dsimp only
    rw [hid, hbase, hlookup]
    cases program.functions.lookup frame.funcId with
    | none => exact blind_trap _ _
    | some func =>
      refine .ite (blind_trap _ _) ?_
      cases checkedAdd frame.basePtr (asUsize raw) with
      | none => exact blind_trap _ _
      | some slot => exact .ite (blind_trap _ _) (Blind.pure _)

theorem currentLocalCount_congr {vm' : Vm} (hlookup : Reentered entry program program')
    (hframes : vm'.callStack.map frameSlots = vm.callStack.map frameSlots) :
    currentLocalCount program' vm' = currentLocalCount program vm := by
  have hid : vm'.callStack.head?.map CallFrame.funcId =
      vm.callStack.head?.map CallFrame.funcId := by
    have hhead := congrArg (fun frames ↦ frames.head?.map Prod.snd) hframes
    simp only [List.head?_map, Option.map_map] at hhead
    exact hhead
  rw [currentLocalCount, currentLocalCount, hid, hlookup, Option.map_map]
  rfl

theorem Unseen.run_call (h : Unseen u) (hlookup : Reentered entry program program')
    (hframes : ∀ vm, (u vm).callStack.map frameSlots = vm.callStack.map frameSlots)
    (henter : ∀ vm' base id func, vm'.callStack = vm.callStack → vm'.pc = vm.pc →
      program.functions.lookup id = some func →
      { u vm' with
        callStack := ⟨(u vm').pc + 1, base, id⟩ :: (u vm').callStack
        pc := entry func } =
      u { vm' with callStack := ⟨vm'.pc + 1, base, id⟩ :: vm'.callStack, pc := func.entryPc })
    (arg1 arg2 : Int32) :
    (call program' arg1 arg2).run (u vm) = ((call program arg1 arg2).run vm).mapState u := by
  simp only [call]
  split
  · rfl
  split
  · rfl
  rw [hlookup]
  cases hfunc : program.functions.lookup (asUsize arg1) with
  | none => rfl
  | some func =>
    dsimp only [Option.map_some]
    split
    · rfl
    have hlength : (u vm).callStack.length = vm.callStack.length := by
      simpa only [List.length_map] using congrArg List.length (hframes vm)
    have hbase : (u vm).callStack.head?.map CallFrame.basePtr =
        vm.callStack.head?.map CallFrame.basePtr := by
      have hhead := congrArg (fun frames ↦ frames.head?.map Prod.fst) (hframes vm)
      simp only [List.head?_map, Option.map_map] at hhead
      exact hhead
    simp only [EStateM.run_bind, EStateM.run_get, hlength]
    split
    · rfl
    simp only [EStateM.run_bind, EStateM.run_get, hbase,
      currentLocalCount_congr hlookup (hframes vm)]
    split
    · rfl
    split
    · rfl
    -- the arguments are copied and the other slots cleared in the caller's frame
    generalize (vm.callStack.head?.map CallFrame.basePtr).getD 0 + currentLocalCount program vm =
      base
    refine Commutes.run_bind (h.copyArgs _ _) fun _ vm₁ hrun₁ ↦ ?_
    have hcopy := Leaves.copyArgs ignores_control base (asUsize arg2) vm
    rw [hrun₁] at hcopy
    refine Commutes.run_bind (h.clearLocals _ _ _) fun _ vm₂ hrun₂ ↦ ?_
    have hclear := Leaves.clearLocals ignores_control base (asUsize arg2)
      (func.localCount - asUsize arg2) vm₁
    rw [hrun₂] at hclear
    obtain ⟨hstack, hpc⟩ := Prod.mk.inj (Eq.trans hclear hcopy)
    exact congrArg (Result.ok false) (henter vm₂ base _ func hstack hpc hfunc)

theorem Unseen.run_ret (h : Unseen u)
    (hret : ∀ vm' frame frames, vm'.callStack = vm.callStack → vm.callStack = frame :: frames →
      ∃ frame' frames', (u vm').callStack = frame' :: frames' ∧
        { u vm' with callStack := frames' } = u { vm' with callStack := frames } ∧
        (frame'.returnPc = usizeMax ↔ frame.returnPc = usizeMax) ∧
        (frame.returnPc ≠ usizeMax → ∀ vm'',
          { u vm'' with pc := frame'.returnPc } = u { vm'' with pc := frame.returnPc }))
    (hnil : ∀ vm', vm'.callStack = vm.callStack → vm.callStack = [] → (u vm').callStack = []) :
    ret.run (u vm) = (ret.run vm).mapState u := by
  refine Commutes.run_bind h.pop fun value vm₁ hrun₁ ↦ ?_
  have hpop := Leaves.pop ignores_callStack.stack vm
  rw [hrun₁] at hpop
  have hstack : vm₁.callStack = vm.callStack := hpop
  cases hframe : vm.callStack with
  | nil =>
    simp only [EStateM.run_bind, EStateM.run_get, hstack, hframe, hnil vm₁ hstack hframe]
    rfl
  | cons frame frames =>
    obtain ⟨frame', frames', hframe', hframes, hmax, hpc⟩ := hret vm₁ frame frames hstack hframe
    simp only [EStateM.run_bind, EStateM.run_get, hstack, hframe, hframe', EStateM.run_modify,
      hframes]
    refine Commutes.run_bind (h.push value) fun _ vm₂ _ ↦ ?_
    by_cases hreturn : frame.returnPc = usizeMax
    · rw [if_neg (not_not_intro hreturn), if_neg (not_not_intro (hmax.mpr hreturn))]
      rfl
    · rw [if_pos hreturn, if_pos fun h ↦ hreturn (hmax.mp h)]
      exact congrArg (Result.ok false) (hpc hreturn vm₂)

end Vm

end MiniLang
