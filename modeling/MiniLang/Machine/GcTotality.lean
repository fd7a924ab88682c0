import MiniLang.Bytecode.Verified
import MiniLang.Machine.GcHeap
import MiniLang.Machine.VmRules

/-!
# The garbage-collected machine does not panic

Nothing is assumed of the bytecode but what the preflight checks. Every number the machine holds is
a 32-bit result or an id, so none is `i64::MIN`; every frame has a flag for each of its locals; and
the heap invariant keeps the free list within the heap. Each instruction preserves this on any
operands, and the cycle limit ends the run.

## What could panic

Four accesses of the machine are unchecked: the difference between the lengths of the heap and of
the free list, which decides about a collection, the heap slot that the free list hands out, the
flag of a local, and the increment of the id counter, a `u32`. A negation could overflow as well.
Unlike the reference machine this one has no marker for a local without a value, which is told by
its flag, so no sequence of instructions produces the least 64-bit integer.

## The two invariants

`Sound` is about values and frames and suffices for the absence of panics. That the heap stays small
enough for the id counter needs `HeapInv`, whose bound depends on the number of rooted arrays; the
limits on the operand stack, the globals and the frames bound that number in turn (`maxRooted`).
`Visited` also has the states between two global arrays, where the loop has not started.
-/

namespace MiniLang

open Verifier

namespace GcVm

variable {program : CompiledProgram} {vm vm' : GcVm} {cycles limit : Nat}

/-! ## The invariant -/

/-- `value` has a negation. -/
def Negatable (value : GcValue) : Prop := value.toI64 ≠ i64Min

/-- A frame is within its limit, has a flag for each local, and its values have negations. -/
structure FrameOk (frame : GcCallFrame) : Prop where
  size : frame.locals.length ≤ maxLocalSlots
  flags : frame.initFlags.length = frame.locals.length
  locals : ∀ value ∈ frame.locals, Negatable value

/-- What every instruction keeps, with the cycle count and limit. -/
structure Sound (cycles limit : Nat) (vm : GcVm) : Prop where
  cycles_eq : vm.cycles = cycles
  limit_eq : vm.maxCycles = limit
  globals_length : vm.globals.length = maxGlobalSlots
  stack_le : vm.stack.length ≤ maxOperandStack
  frames_le : vm.callStack.length ≤ maxFrames
  stack : ∀ value ∈ vm.stack, Negatable value
  globals : ∀ value ∈ vm.globals, Negatable value
  frames : ∀ frame ∈ vm.callStack, FrameOk frame
  heap : ∀ array, some array ∈ vm.heapArrays → ∀ value ∈ array.data, value ≠ i64Min

theorem negatable_ref (id : Nat) : Negatable (.arrayRef id) := by
  intro h
  simp only [GcValue.toI64, i64Min] at h
  omega

theorem FrameOk.new {localCount : Nat} (h : localCount ≤ maxLocalSlots) (returnPc : Nat) :
    FrameOk (.new localCount returnPc) where
  size := List.length_replicate.trans_le h
  flags := by simp [GcCallFrame.new]
  locals value h := by
    rw [List.eq_of_mem_replicate h]
    exact natCast_ne_i64Min 0

theorem FrameOk.set {frame : GcCallFrame} {value : GcValue} (h : FrameOk frame) (slot : Nat)
    (hvalue : Negatable value) : FrameOk (frame.set slot value) where
  size := List.length_set.trans_le h.size
  flags := by simpa [GcCallFrame.set] using h.flags
  locals v hv := by
    rcases List.mem_or_eq_of_mem_set hv with hv | rfl
    · exact h.locals v hv
    · exact hvalue

theorem FrameOk.initParams {frame : GcCallFrame} {args : List GcValue} (h : FrameOk frame)
    (slot : Nat) (hargs : ∀ arg ∈ args, Negatable arg) : FrameOk (frame.initParams slot args) := by
  induction args generalizing frame slot with
  | nil => exact h
  | cons arg args ih =>
    obtain ⟨harg, hrest⟩ := List.forall_mem_cons.mp hargs
    exact ih (h.set slot harg) (slot + 1) hrest

theorem FrameOk.get {frame : GcCallFrame} {slot : Nat} {value : GcValue} (h : FrameOk frame)
    (hget : frame.get slot = some value) : Negatable value := by
  rw [GcCallFrame.get] at hget
  split at hget
  · exact h.locals value (List.mem_of_getElem? hget)
  · cases hget

/-! ## Operands -/

/-- `x` keeps the invariant and does not panic. -/
abbrev KeepsSound {α : Type} (cycles limit : Nat) (x : GcVmM α) (Q : α → Prop) : Prop :=
  EStateM.Triple (Sound cycles limit) x (fun a vm ↦ Q a ∧ Sound cycles limit vm)
    fun e _ ↦ e ≠ .panic

/-! ### Allocation -/

/-- The arrays a collection leaves have the contents they had. -/
theorem exists_of_mem_collectGarbage {array : HeapArray}
    (h : some array ∈ vm.collectGarbage.heapArrays) :
    ∃ array', some array' ∈ vm.heapArrays ∧ array'.data = array.data := by
  obtain ⟨i, hi⟩ := List.mem_iff_getElem?.mp h
  rw [getElem?_collectGarbage] at hi
  rcases hslot : vm.heapArrays[i]? with _ | _ | array'
  · simp [hslot] at hi
  · simp [hslot] at hi
  · rw [hslot] at hi
    refine ⟨array', List.mem_of_getElem? hslot, ?_⟩
    by_cases hrooted : i ∈ vm.rooted
    · simp only [hrooted, if_true, Option.map_some, Option.some_inj] at hi
      rw [← hi]
    · simp [hrooted] at hi

namespace Sound

theorem collectGarbage (h : Sound cycles limit vm) : Sound cycles limit vm.collectGarbage :=
  { h with
    heap := fun array hmem value hvalue ↦ by
      obtain ⟨array', hmem', hdata⟩ := exists_of_mem_collectGarbage hmem
      exact h.heap array' hmem' value (hdata ▸ hvalue) }

theorem takeSlot (h : Sound cycles limit vm) {array : HeapArray}
    (harray : ∀ value ∈ array.data, value ≠ i64Min) : Sound cycles limit (vm.takeSlot array).2 := by
  have hset (i : Nat) : ∀ array', some array' ∈ vm.heapArrays.set i (some array) →
      ∀ value ∈ array'.data, value ≠ i64Min := by
    intro array' hmem
    rcases List.mem_or_eq_of_mem_set hmem with hmem | heq
    · exact h.heap array' hmem
    · exact Option.some_inj.mp heq ▸ harray
  rw [GcVm.takeSlot]
  split
  · exact { h with heap := hset _ }
  · dsimp only
    split
    · exact { h with heap := hset _ }
    · refine { h with heap := fun array' hmem ↦ ?_ }
      rcases List.mem_append.mp hmem with hmem | hmem
      · exact h.heap array' hmem
      · exact Option.some_inj.mp (List.mem_singleton.mp hmem) ▸ harray

theorem allocArray (h : Sound cycles limit vm) (size : Nat) :
    Sound cycles limit (vm.allocArray size).2 := by
  have hnew : ∀ value ∈ (HeapArray.new size).data, value ≠ i64Min :=
    fun value hvalue ↦ List.eq_of_mem_replicate hvalue ▸ natCast_ne_i64Min 0
  rw [GcVm.allocArray]
  split
  · exact h.collectGarbage.takeSlot hnew
  · exact h.takeSlot hnew

end Sound

namespace KeepsSound

variable {α β : Type} {x : GcVmM α} {f : α → GcVmM β} {Q : α → Prop} {T : β → Prop}

theorem bind (hx : KeepsSound cycles limit x Q) (hf : ∀ a, Q a → KeepsSound cycles limit (f a) T) :
    KeepsSound cycles limit (x >>= f) T :=
  EStateM.Triple.bind hx fun a vm hvm ↦ hf a hvm.1 vm hvm.2

theorem pure {a : α} (h : Q a) : KeepsSound cycles limit (Pure.pure a) Q :=
  EStateM.Triple.pure fun _ hvm ↦ ⟨h, hvm⟩

theorem trap (code : TrapCode) (message : String) :
    KeepsSound cycles limit (GcVm.trap code message : GcVmM α) Q :=
  EStateM.Triple.throw fun _ _ h ↦ by cases h

theorem get_bind {f : GcVm → GcVmM β}
    (h : ∀ vm, Sound cycles limit vm → ((f vm).run vm).Post (fun b vm ↦ T b ∧ Sound cycles limit vm)
      fun e _ ↦ e ≠ .panic) : KeepsSound cycles limit (get >>= f) T :=
  fun vm hvm ↦ h vm hvm

theorem pop : KeepsSound cycles limit pop Negatable := by
  refine get_bind fun vm hvm ↦ ?_
  split
  · exact fun h ↦ by cases h
  · next value stack hstack =>
    have hvalues := hvm.stack
    have hle := hvm.stack_le
    rw [hstack] at hvalues hle
    obtain ⟨hvalue, hrest⟩ := List.forall_mem_cons.mp hvalues
    exact ⟨hvalue, { hvm with stack := hrest, stack_le := Nat.le_of_succ_le hle }⟩

theorem popInt : KeepsSound cycles limit popInt (· ≠ i64Min) := pop.bind fun _ h ↦ pure h

theorem push {value : GcValue} (h : Negatable value) :
    KeepsSound cycles limit (push value) fun _ ↦ True := by
  refine get_bind fun vm hvm ↦ ?_
  split
  · exact fun h ↦ by cases h
  · next hlt =>
    exact ⟨trivial, { hvm with
      stack_le := Nat.lt_of_not_le hlt
      stack := List.forall_mem_cons.mpr ⟨h, hvm.stack⟩ }⟩

theorem pushInt {value : Int} (h : value ≠ i64Min) :
    KeepsSound cycles limit (GcVm.push (.int value)) fun _ ↦ True :=
  push h

theorem currentFrame : KeepsSound cycles limit currentFrame FrameOk := by
  refine get_bind fun vm hvm ↦ ?_
  split
  · exact fun h ↦ by cases h
  · next frame frames hframes => exact ⟨hvm.frames frame (hframes ▸ List.mem_cons_self), hvm⟩

theorem currentLocalSlot (raw : Int32) :
    KeepsSound cycles limit (currentLocalSlot raw) fun _ ↦ True := by
  rw [GcVm.currentLocalSlot]
  split
  · exact trap _ _
  refine currentFrame.bind fun frame _ ↦ ?_
  split
  · exact trap _ _
  · exact pure trivial

theorem globalSlot (raw : Int32) :
    KeepsSound cycles limit (globalSlot raw) (· < maxGlobalSlots) := by
  rw [GcVm.globalSlot]
  split
  · exact trap _ _
  refine get_bind fun vm hvm ↦ ?_
  dsimp only
  split
  · exact fun h ↦ by cases h
  · next hlt => exact ⟨hvm.globals_length ▸ Nat.lt_of_not_le hlt, hvm⟩

theorem arraySize (raw : Int32) : KeepsSound cycles limit (arraySize raw) fun _ ↦ True := by
  rw [GcVm.arraySize]
  split
  · exact trap _ _
  · exact pure trivial

theorem globalArrayRange (raw rawSize : Int32) :
    KeepsSound cycles limit (globalArrayRange raw rawSize)
      fun range ↦ range.1 < maxGlobalSlots ∧ range.1 + range.2 ≤ maxGlobalSlots := by
  refine (globalSlot raw).bind fun slot hslot ↦ (arraySize rawSize).bind fun size _ ↦ ?_
  split
  · exact trap _ _
  · next last hlast =>
    obtain ⟨-, rfl⟩ := checkedAdd_eq_some.mp hlast
    refine get_bind fun vm hvm ↦ ?_
    dsimp only
    split
    · exact fun h ↦ by cases h
    · next hle => exact ⟨⟨hslot, hvm.globals_length ▸ Nat.le_of_not_lt hle⟩, hvm⟩

theorem arrayIndex (raw : Int) (size : Nat) :
    KeepsSound cycles limit (arrayIndex raw size) (· < size) := by
  rw [GcVm.arrayIndex]
  split
  · exact trap _ _
  · next h => exact pure (Nat.lt_of_not_le (not_or.mp h).2)

theorem readGlobal {slot : Nat} (h : slot < maxGlobalSlots) :
    KeepsSound cycles limit (readGlobal slot) Negatable := by
  refine get_bind fun vm hvm ↦ ?_
  rw [List.getElem?_eq_getElem (hvm.globals_length.symm ▸ h)]
  exact ⟨hvm.globals _ (List.getElem_mem _), hvm⟩

theorem writeGlobal {slot : Nat} {value : GcValue} (h : slot < maxGlobalSlots)
    (hvalue : Negatable value) : KeepsSound cycles limit (writeGlobal slot value) fun _ ↦ True := by
  refine get_bind fun vm hvm ↦ ?_
  rw [if_pos (hvm.globals_length.symm ▸ h)]
  refine ⟨trivial, { hvm with
    globals_length := List.length_set.trans hvm.globals_length
    globals := fun v hv ↦ ?_ }⟩
  rcases List.mem_or_eq_of_mem_set hv with hv | rfl
  · exact hvm.globals v hv
  · exact hvalue

theorem setLocal (slot : Nat) {value : GcValue} (hvalue : Negatable value) :
    KeepsSound cycles limit (setLocal slot value) fun _ ↦ True := by
  refine get_bind fun vm hvm ↦ ?_
  split
  · exact fun h ↦ by cases h
  · next frame frames hframes =>
    have hall := hvm.frames
    have hle := hvm.frames_le
    rw [hframes] at hall hle
    obtain ⟨hframe, hrest⟩ := List.forall_mem_cons.mp hall
    exact ⟨trivial, { hvm with
      frames_le := hle
      frames := List.forall_mem_cons.mpr ⟨hframe.set slot hvalue, hrest⟩ }⟩

theorem mem_of_getArray {id : Nat} {array : HeapArray} (h : vm.getArray id = some array) :
    some array ∈ vm.heapArrays := by
  rw [getArray] at h
  cases hget : vm.heapArrays[id]? with
  | none => simp [hget] at h
  | some slot =>
    rw [hget, Option.join_some] at h
    exact h ▸ List.mem_of_getElem? hget

theorem loadElement (id index : Nat) :
    KeepsSound cycles limit (loadElement id index) Negatable := by
  refine get_bind fun vm hvm ↦ ?_
  split
  · exact fun h ↦ by cases h
  · next array harray =>
    split
    · next value hvalue =>
      exact ⟨hvm.heap array (mem_of_getArray harray) value (List.mem_of_getElem? hvalue), hvm⟩
    · exact fun h ↦ by cases h

theorem storeElement (id index : Nat) {value : Int} (hvalue : value ≠ i64Min) :
    KeepsSound cycles limit (storeElement id index value) fun _ ↦ True := by
  refine get_bind fun vm hvm ↦ ?_
  split
  · exact fun h ↦ by cases h
  · next array harray =>
    split
    · refine ⟨trivial, { hvm with heap := fun array' hmem v hv ↦ ?_ }⟩
      rcases List.mem_or_eq_of_mem_set hmem with hmem | heq
      · exact hvm.heap array' hmem v hv
      · obtain rfl := Option.some_inj.mp heq
        rcases List.mem_or_eq_of_mem_set hv with hv | rfl
        · exact hvm.heap array (mem_of_getArray harray) v hv
        · exact hvalue
    · exact fun h ↦ by cases h

theorem binary {f : Int → Int → Int} (h : ∀ a b, f a b ≠ i64Min) :
    KeepsSound cycles limit (binary f) fun _ ↦ True :=
  popInt.bind fun b _ ↦ popInt.bind fun a _ ↦ (pushInt (h a b)).bind fun _ _ ↦ pure trivial

theorem logical (f : Bool → Bool → Bool) : KeepsSound cycles limit (logical f) fun _ ↦ True :=
  pop.bind fun _ _ ↦ pop.bind fun _ _ ↦ (pushInt (flag_ne_i64Min _)).bind fun _ _ ↦ pure trivial

theorem popArgs_frames (count : Nat) {args : List GcValue} {frames : List GcCallFrame}
    (hargs : ∀ arg ∈ args, Negatable arg) :
    EStateM.Triple (fun vm ↦ Sound cycles limit vm ∧ vm.callStack = frames) (popArgs count args)
      (fun args vm ↦ (∀ arg ∈ args, Negatable arg) ∧ Sound cycles limit vm ∧ vm.callStack = frames)
      fun e _ ↦ e ≠ .panic := by
  induction count generalizing args with
  | zero => exact fun vm hvm ↦ ⟨hargs, hvm⟩
  | succ count ih =>
    rintro vm ⟨hvm, hframes⟩
    have hpop := pop vm hvm
    rw [popArgs, EStateM.run_bind]
    cases hstack : vm.stack with
    | nil =>
      simp only [GcVm.pop, EStateM.run_bind, EStateM.run_get, hstack]
      exact fun h ↦ by cases h
    | cons value stack =>
      simp only [GcVm.pop, EStateM.run_bind, EStateM.run_get, hstack, EStateM.run_modify,
        EStateM.run_pure] at hpop ⊢
      exact ih (List.forall_mem_cons.mpr ⟨hpop.1, hargs⟩) _ ⟨hpop.2, hframes⟩

/-! ## Instructions -/

theorem call (hslots : ∀ id info, program.functions.lookup id = some info → SlotsOk info)
    (arg1 arg2 : Int32) : KeepsSound cycles limit (call program arg1 arg2) fun _ ↦ True := by
  rw [GcVm.call]
  split
  · exact trap _ _
  split
  · exact trap _ _
  dsimp only
  split
  · exact trap _ _
  next func hfunc =>
  refine get_bind fun vm hvm ↦ ?_
  split
  · exact fun h ↦ by cases h
  next hroom =>
  split
  · exact fun h ↦ by cases h
  -- popping the arguments leaves the frames alone, so there is still room for one more
  refine EStateM.Triple.bind (popArgs_frames _ fun _ h ↦ absurd h List.not_mem_nil)
    (fun args vm' hvm' ↦ ?_) vm ⟨hvm, rfl⟩
  obtain ⟨hargs, hvm', hframes⟩ := hvm'
  have hlt : vm'.callStack.length < maxFrames := hframes ▸ Nat.lt_of_not_le hroom
  exact ⟨trivial, { hvm' with
    frames_le := hlt
    frames := List.forall_mem_cons.mpr
      ⟨(FrameOk.new (hslots _ _ hfunc).2 _).initParams 0 hargs, hvm'.frames⟩ }⟩

theorem alloc (arg1 : Int32) : KeepsSound cycles limit (alloc arg1) fun _ ↦ True := by
  refine (arraySize arg1).bind fun size _ vm hvm ↦ ?_
  have hpush (id : Nat) : KeepsSound cycles limit (do GcVm.push (.arrayRef id); return true)
      fun _ ↦ True := (push (negatable_ref id)).bind fun _ _ ↦ pure trivial
  exact hpush _ _ (hvm.allocArray size)

theorem done {advance : Bool} : KeepsSound cycles limit (Pure.pure advance) fun _ ↦ True :=
  pure trivial

theorem execDup (arg1 arg2 : Int32) :
    KeepsSound cycles limit (GcVm.executeInstruction program .dup arg1 arg2) fun _ ↦ True := by
  refine get_bind fun vm hvm ↦ ?_
  split
  · exact fun h ↦ by cases h
  · next value stack hstack =>
    have hvalue := hvm.stack value (hstack ▸ List.mem_cons_self)
    exact ((push hvalue).bind fun _ _ ↦ done) vm hvm

/-- The array is on the heap or, without a reference, in the globals, whose range was checked. -/
theorem execArrayLoad (arg1 arg2 : Int32) :
    KeepsSound cycles limit (GcVm.executeInstruction program .arrayLoad arg1 arg2) fun _ ↦ True := by
  refine (globalArrayRange arg1 arg2).bind fun range hrange ↦ popInt.bind fun raw _ ↦
    (arrayIndex raw range.2).bind fun index hindex ↦ (readGlobal hrange.1).bind fun base _ ↦ ?_
  have hlast := hrange.2
  split
  · exact (loadElement _ index).bind fun value hvalue ↦ (push hvalue).bind fun _ _ ↦ done
  · exact (readGlobal (by omega)).bind fun value hvalue ↦ (push hvalue).bind fun _ _ ↦ done

theorem execArrayStore (arg1 arg2 : Int32) :
    KeepsSound cycles limit (GcVm.executeInstruction program .arrayStore arg1 arg2) fun _ ↦ True := by
  refine (globalArrayRange arg1 arg2).bind fun range hrange ↦ popInt.bind fun value hvalue ↦
    popInt.bind fun raw _ ↦ (arrayIndex raw range.2).bind fun index hindex ↦
    (readGlobal hrange.1).bind fun base _ ↦ ?_
  have hlast := hrange.2
  split
  · exact (storeElement _ index hvalue).bind fun _ _ ↦ done
  · exact (writeGlobal (by omega) (show Negatable (.int value) from hvalue)).bind fun _ _ ↦ done

/-- A local without an array is pushed as the number it is. -/
theorem execLocalArrayLoad (arg1 arg2 : Int32) :
    KeepsSound cycles limit (GcVm.executeInstruction program .localArrayLoad arg1 arg2) fun _ ↦ True := by
  refine (currentLocalSlot arg1).bind fun slot _ ↦ (arraySize arg2).bind fun size _ ↦
    popInt.bind fun raw _ ↦ (arrayIndex raw size).bind fun index _ ↦
    currentFrame.bind fun frame hframe ↦ ?_
  split
  · exact (loadElement _ index).bind fun value hvalue ↦ (push hvalue).bind fun _ _ ↦ done
  · next hvalue => exact (pushInt (hframe.get hvalue)).bind fun _ _ ↦ done
  · exact trap _ _

theorem execLocalArrayStore (arg1 arg2 : Int32) :
    KeepsSound cycles limit (GcVm.executeInstruction program .localArrayStore arg1 arg2) fun _ ↦ True := by
  refine (currentLocalSlot arg1).bind fun slot _ ↦ (arraySize arg2).bind fun size _ ↦
    popInt.bind fun value hvalue ↦ popInt.bind fun raw _ ↦ (arrayIndex raw size).bind fun index _ ↦
    currentFrame.bind fun frame _ ↦ ?_
  split
  · exact (storeElement _ index hvalue).bind fun _ _ ↦ done
  · exact trap _ _

/-- Every instruction but a return. -/
theorem executeInstruction
    (hslots : ∀ id info, program.functions.lookup id = some info → SlotsOk info)
    {opcode : Opcode} (arg1 arg2 : Int32) (h : opcode ≠ .return) :
    KeepsSound cycles limit (executeInstruction program opcode arg1 arg2) fun _ ↦ True := by
  have hjump (target : Nat) : KeepsSound cycles limit (do
      MonadState.modifyGet fun vm : GcVm ↦ ((), { vm with pc := target })
      return false) fun _ ↦ True := fun vm hvm ↦ ⟨trivial, { hvm with }⟩
  cases opcode with
  | «return» => exact absurd rfl h
  | loadConst => exact (pushInt (toInt_ne_i64Min arg1)).bind fun _ _ ↦ done
  | loadLocal =>
    refine (currentLocalSlot arg1).bind fun slot _ ↦ currentFrame.bind fun frame hframe ↦ ?_
    split
    · next value hvalue => exact (push (hframe.get hvalue)).bind fun _ _ ↦ done
    · exact trap _ _
  | storeLocal =>
    exact (currentLocalSlot arg1).bind fun slot _ ↦ pop.bind fun value hvalue ↦
      (setLocal slot hvalue).bind fun _ _ ↦ done
  | loadGlobal =>
    exact (globalSlot arg1).bind fun slot hslot ↦ (readGlobal hslot).bind fun value hvalue ↦
      (push hvalue).bind fun _ _ ↦ done
  | storeGlobal =>
    exact (globalSlot arg1).bind fun slot hslot ↦ pop.bind fun value hvalue ↦
      (writeGlobal hslot hvalue).bind fun _ _ ↦ done
  | add | sub | mul => exact binary fun _ _ ↦ normalizeI32_ne_i64Min _
  | eq | ne | lt | gt | le | ge => exact binary fun _ _ ↦ flag_ne_i64Min _
  | and | or => exact logical _
  | div =>
    refine popInt.bind fun b _ ↦ popInt.bind fun a ha ↦ ?_
    split
    · exact trap _ _
    split
    · next hover => exact absurd hover.1 ha
    · exact (pushInt (normalizeI32_ne_i64Min _)).bind fun _ _ ↦ done
  | neg =>
    refine popInt.bind fun a ha ↦ ?_
    split
    · next hover => exact absurd hover ha
    · exact (pushInt (normalizeI32_ne_i64Min _)).bind fun _ _ ↦ done
  | not => exact pop.bind fun a _ ↦ (pushInt (flag_ne_i64Min _)).bind fun _ _ ↦ done
  | jump => exact hjump _
  | jumpIfFalse | jumpIfTrue =>
    refine pop.bind fun cond _ ↦ ?_
    split
    · exact hjump _
    · exact done
  | call => exact call hslots arg1 arg2
  | print => exact popInt.bind fun value _ vm hvm ↦ ⟨trivial, { hvm with }⟩
  | pop => exact pop.bind fun _ _ ↦ done
  | dup => exact execDup arg1 arg2
  | halt =>
    exact fun vm hvm ↦ ⟨trivial, { hvm with
      frames_le := Nat.zero_le _
      frames := fun _ h ↦ absurd h List.not_mem_nil }⟩
  | arrayLoad => exact execArrayLoad arg1 arg2
  | arrayStore => exact execArrayStore arg1 arg2
  | localArrayLoad => exact execLocalArrayLoad arg1 arg2
  | localArrayStore => exact execLocalArrayStore arg1 arg2
  | arrayNew | allocArray => exact alloc arg1

theorem ret (hvm : Sound cycles limit vm) (hframes : vm.callStack ≠ []) :
    (ret.run vm).Post (fun _ vm ↦ Sound cycles limit vm) fun e _ ↦ e ≠ .panic := by
  obtain ⟨frame, frames, hcall⟩ := List.exists_cons_of_ne_nil hframes
  cases hstack : vm.stack with
  | nil =>
    simp only [GcVm.ret, GcVm.pop, EStateM.run_bind, EStateM.run_get, hstack]
    exact fun h ↦ by cases h
  | cons value stack =>
    have hvalues := hvm.stack
    have hle := hvm.stack_le
    have hall := hvm.frames
    have hdepth := hvm.frames_le
    rw [hstack] at hvalues hle
    rw [hcall] at hall hdepth
    obtain ⟨hvalue, hrest⟩ := List.forall_mem_cons.mp hvalues
    have hback : KeepsSound cycles limit (do
        if frame.returnPc ≠ usizeMax then modify fun vm : GcVm ↦ { vm with pc := frame.returnPc }
        GcVm.push value
        return false) fun _ ↦ True := by
      have hpush : KeepsSound cycles limit (do GcVm.push value; return false) fun _ ↦ True :=
        (push hvalue).bind fun _ _ ↦ pure trivial
      split
      · exact fun vm' hvm' ↦ hpush _ { hvm' with }
      · exact hpush
    simp only [GcVm.ret, GcVm.pop, EStateM.run_bind, EStateM.run_get, hstack, EStateM.run_modify,
      EStateM.run_pure, hcall]
    exact (hback { vm with stack := stack, callStack := frames } { hvm with
      stack_le := Nat.le_of_succ_le hle
      stack := hrest
      frames_le := Nat.le_of_succ_le hdepth
      frames := (List.forall_mem_cons.mp hall).2 }).mono (fun _ _ h ↦ h.2) fun _ _ h ↦ h

end KeepsSound

/-! ## Steps -/

/-- A state of the main loop, where a frame is active. -/
structure Running (cycles limit : Nat) (vm : GcVm) : Prop extends Sound cycles limit vm where
  active : vm.callStack ≠ []

/-- The next state goes on, one cycle later, or the run ends without a panic. -/
def StepsOn (cycles limit : Nat) : GcVm ⊕ (GcVmHalt × GcVm) → Prop
  | .inl vm => Running (cycles + 1) limit vm
  | .inr (halt, _) => ∃ result, halt = .result result

theorem Running.executeInstruction
    (hslots : ∀ id info, program.functions.lookup id = some info → SlotsOk info)
    (hvm : Running cycles limit vm) (opcode : Opcode) (arg1 arg2 : Int32) :
    ((executeInstruction program opcode arg1 arg2).run { vm with cycles := vm.cycles + 1 }).Post
      (fun _ vm ↦ Sound (cycles + 1) limit vm) fun e _ ↦ e ≠ .panic := by
  have hcycle : Sound (cycles + 1) limit { vm with cycles := vm.cycles + 1 } :=
    { hvm.toSound with cycles_eq := congrArg (· + 1) hvm.cycles_eq }
  by_cases hop : opcode = .return
  · subst hop
    exact KeepsSound.ret hcycle hvm.active
  · exact (KeepsSound.executeInstruction hslots arg1 arg2 hop _ hcycle).mono (fun _ _ h ↦ h.2)
      fun _ _ h ↦ h

/-- **The step lemma.** -/
theorem Running.step (hslots : ∀ id info, program.functions.lookup id = some info → SlotsOk info)
    (hvm : Running cycles limit vm) : StepsOn cycles limit (step program vm) := by
  rw [GcVm.step]
  by_cases hlimit : vm.maxCycles > 0 ∧ vm.cycles ≥ vm.maxCycles
  · rw [if_pos hlimit]
    exact ⟨_, rfl⟩
  rw [if_neg hlimit]
  cases hinstr : program.instructions[vm.pc]? with
  | none => exact ⟨_, rfl⟩
  | some instr =>
  dsimp only
  have hexec := hvm.executeInstruction hslots instr.opcode instr.arg1 instr.arg2
  cases hrun : (GcVm.executeInstruction program instr.opcode instr.arg1 instr.arg2).run
      { vm with cycles := vm.cycles + 1 } with
  | error e vm' =>
    rw [hrun] at hexec
    cases e with
    | trap code message => exact ⟨_, rfl⟩
    | panic => exact absurd rfl hexec
  | ok advance vm' =>
    rw [hrun] at hexec
    dsimp only
    rw [afterInstruction]
    have hafter : Sound (cycles + 1) limit
        (if advance then { vm' with pc := vm'.pc + 1 } else vm') := by
      split
      · exact { hexec with }
      · exact hexec
    generalize (if advance then { vm' with pc := vm'.pc + 1 } else vm') = after at hafter
    dsimp only
    by_cases hframes : after.callStack = []
    · rw [if_pos hframes]
      exact ⟨_, rfl⟩
    · rw [if_neg hframes]
      exact { hafter with active := hframes }

/-! ## The preflight -/

theorem slotsOk_of_validateFunctions {infos : List FunctionInfo}
    (h : validateFunctions infos = .ok ()) : ∀ info ∈ infos, SlotsOk info := by
  induction infos with
  | nil => exact fun _ hmem ↦ absurd hmem List.not_mem_nil
  | cons info infos ih =>
    rw [validateFunctions] at h
    split at h
    · cases h
    next hparams =>
    split at h
    · cases h
    next hlocals =>
    exact List.forall_mem_cons.mpr
      ⟨⟨Nat.le_of_not_lt hparams, Nat.le_of_not_lt hlocals⟩, ih h⟩

/-- The slots the globals need cover those of every array, and are no fewer than `maxSlot`. -/
theorem slot_lt_of_requiredGlobalSlots {infos : List GlobalInfo} {maxSlot slots : Nat}
    (h : requiredGlobalSlots infos maxSlot = .ok slots) :
    maxSlot ≤ slots ∧ ∀ info ∈ infos, info.isArray = true → info.slot < slots := by
  induction infos generalizing maxSlot with
  | nil =>
    cases h
    exact ⟨le_rfl, fun _ hmem ↦ absurd hmem List.not_mem_nil⟩
  | cons info infos ih =>
    rw [requiredGlobalSlots] at h
    split at h
    · cases h
    next hsize =>
    split at h
    · cases h
    next last hlast =>
    obtain ⟨-, rfl⟩ := checkedAdd_eq_some.mp hlast
    obtain ⟨hmax, hrest⟩ := ih h
    refine ⟨(Nat.le_max_left _ _).trans hmax, List.forall_mem_cons.mpr ⟨fun harray ↦ ?_, hrest⟩⟩
    have hpos : 0 < info.arraySize := Nat.pos_of_ne_zero fun hzero ↦ hsize ⟨harray, hzero⟩
    rw [if_pos harray] at hmax
    have := (Nat.le_max_right maxSlot _).trans hmax
    omega

/-- What a passed preflight says. -/
theorem of_validate (h : program.validate = .ok ()) :
    (∀ id info, program.functions.lookup id = some info → SlotsOk info) ∧
      ∀ info ∈ program.globals.values, info.isArray = true → info.slot < maxGlobalSlots := by
  rw [CompiledProgram.validate] at h
  split at h
  · cases h
  cases hfunctions : validateFunctions program.functions.values with
  | error e => rw [hfunctions] at h; cases h
  | ok _ =>
  cases hglobals : requiredGlobalSlots program.globals.values 0 with
  | error e => rw [hfunctions, hglobals] at h; cases h
  | ok slots =>
  rw [hfunctions, hglobals] at h
  change (if slots > maxGlobalSlots then _ else Except.ok ()) = _ at h
  split at h
  · cases h
  next hslots =>
  refine ⟨fun id info hlookup ↦ ?_, fun info hmem harray ↦ ?_⟩
  · exact slotsOk_of_validateFunctions hfunctions info
      (List.mem_map.mpr ⟨⟨id, info⟩, AList.mem_lookup_iff.mp hlookup, rfl⟩)
  · exact ((slot_lt_of_requiredGlobalSlots hglobals).2 info hmem harray).trans_le
      (Nat.le_of_not_lt hslots)

theorem Sound.setGlobalRef (h : Sound cycles limit vm) (slot id : Nat) :
    Sound cycles limit { vm with globals := vm.globals.set slot (.arrayRef id) } :=
  { h with
    globals_length := List.length_set.trans h.globals_length
    globals := fun value hvalue ↦ by
      rcases List.mem_or_eq_of_mem_set hvalue with hvalue | rfl
      · exact h.globals value hvalue
      · exact negatable_ref _ }

/-- Initializing global arrays keeps the invariant. -/
theorem Sound.initGlobalArrays {infos : List GlobalInfo} (h : Sound cycles limit vm)
    (hinit : GcVm.initGlobalArrays infos vm = some vm') : Sound cycles limit vm' := by
  induction infos generalizing vm with
  | nil =>
    cases hinit
    exact h
  | cons info infos ih =>
    rw [GcVm.initGlobalArrays] at hinit
    split at hinit
    · dsimp only at hinit
      split at hinit
      · exact ih ((h.allocArray info.arraySize).setGlobalRef _ _) hinit
      · cases hinit
    · exact ih h hinit

theorem callStack_initGlobalArrays {infos : List GlobalInfo}
    (hinit : GcVm.initGlobalArrays infos vm = some vm') : vm'.callStack = vm.callStack := by
  induction infos generalizing vm with
  | nil =>
    cases hinit
    rfl
  | cons info infos ih =>
    rw [GcVm.initGlobalArrays] at hinit
    split at hinit
    · dsimp only at hinit
      split at hinit
      · refine (ih hinit).trans ?_
        change (vm.allocArray info.arraySize).2.callStack = vm.callStack
        rw [allocArray]
        split <;> rw [takeSlot] <;> split <;> rfl
      · cases hinit
    · exact ih hinit

/-- It does not panic when their slots are in range. -/
theorem Sound.exists_initGlobalArrays {infos : List GlobalInfo} (h : Sound cycles limit vm)
    (hslots : ∀ info ∈ infos, info.isArray = true → info.slot < maxGlobalSlots) :
    ∃ vm', GcVm.initGlobalArrays infos vm = some vm' := by
  induction infos generalizing vm with
  | nil => exact ⟨vm, rfl⟩
  | cons info infos ih =>
    obtain ⟨hslot, hrest⟩ := List.forall_mem_cons.mp hslots
    rw [GcVm.initGlobalArrays]
    split
    · next harray =>
      have halloc := h.allocArray info.arraySize
      dsimp only
      rw [if_pos (halloc.globals_length.symm ▸ hslot harray)]
      exact ih (halloc.setGlobalRef _ _) hrest
    · exact ih h hrest

/-! ## Runs -/

/-- The machine before a run. -/
def init (maxCycles : Nat) (trace : Option (List TraceEvent)) : GcVm :=
  { new with maxCycles := maxCycles, trace := trace }

/-- A state the main loop of a run gets to. -/
def Reached (program : CompiledProgram) (maxCycles : Nat) (trace : Option (List TraceEvent))
    (vm : GcVm) : Prop :=
  ∃ vm₀, start program (init maxCycles trace) = .inl vm₀ ∧
    Stepping.Reaches (step program) vm₀ vm

/-- A state a run gets to, in its loop or while it initializes the global arrays. -/
def Visited (program : CompiledProgram) (maxCycles : Nat) (trace : Option (List TraceEvent))
    (vm : GcVm) : Prop :=
  (∃ infos rest, program.globals.values = infos ++ rest ∧
    initGlobalArrays infos (init maxCycles trace) = some vm) ∨
  Reached program maxCycles trace vm

theorem sound_init (maxCycles : Nat) (trace : Option (List TraceEvent)) :
    Sound 0 maxCycles (init maxCycles trace) where
  cycles_eq := rfl
  limit_eq := rfl
  globals_length := List.length_replicate
  stack_le := Nat.zero_le _
  frames_le := Nat.zero_le _
  stack _ h := absurd h List.not_mem_nil
  globals _ h := List.eq_of_mem_replicate h ▸ natCast_ne_i64Min 0
  frames _ h := absurd h List.not_mem_nil
  heap _ h := absurd h List.not_mem_nil

/-- The preflight ends the run with a trap or hands a running state to the loop. -/
theorem start_cases (program : CompiledProgram) (maxCycles : Nat)
    (trace : Option (List TraceEvent)) :
    (∃ result, start program (init maxCycles trace) = .inr (.result result)) ∨
    ∃ vm₀, start program (init maxCycles trace) = .inl vm₀ ∧ Running 0 maxCycles vm₀ ∧
      ∀ id info, program.functions.lookup id = some info → SlotsOk info := by
  rw [start]
  cases hvalidate : program.validate with
  | error e => exact .inl ⟨_, rfl⟩
  | ok _ =>
  obtain ⟨hslots, hglobals⟩ := of_validate hvalidate
  cases hmain : program.functions.lookup program.mainFuncId with
  | none => exact .inl ⟨_, rfl⟩
  | some info =>
  obtain ⟨vm, hinit⟩ := (sound_init maxCycles trace).exists_initGlobalArrays hglobals
  have hvm := (sound_init maxCycles trace).initGlobalArrays hinit
  have hempty : vm.callStack = [] := callStack_initGlobalArrays hinit
  rw [hinit]
  refine .inr ⟨_, rfl, { hvm with frames_le := ?_, frames := ?_, active := List.cons_ne_nil _ _ },
    hslots⟩
  · simp [hempty, maxFrames]
  · exact List.forall_mem_cons.mpr ⟨.new (hslots _ _ hmain).2 _, hvm.frames⟩

/-- **The run lemma.** -/
theorem Reached.running {maxCycles : Nat} {trace : Option (List TraceEvent)}
    (h : Reached program maxCycles trace vm) :
    (∃ cycles, Running cycles maxCycles vm) ∧
      ∀ id info, program.functions.lookup id = some info → SlotsOk info := by
  obtain ⟨vm₀, hstart, hreaches⟩ := h
  rcases start_cases program maxCycles trace with ⟨result, hresult⟩ | ⟨_, hstart', hvm₀, hslots⟩
  · rw [hstart] at hresult
    cases hresult
  rw [hstart] at hstart'
  cases hstart'
  refine ⟨?_, hslots⟩
  induction hreaches with
  | refl => exact ⟨0, hvm₀⟩
  | tail _ hstep ih =>
    obtain ⟨cycles, hvm⟩ := ih
    have hnext := hvm.step hslots
    rw [hstep] at hnext
    exact ⟨cycles + 1, hnext⟩

/-- Every run ends, and not with a panic. -/
theorem exists_runFull (program : CompiledProgram) {maxCycles : Nat} (hmax : 0 < maxCycles)
    (trace : Option (List TraceEvent)) :
    ∃ fuel result vm, runFull program fuel (init maxCycles trace) = some (.result result, vm) := by
  rcases start_cases program maxCycles trace with ⟨result, hstart⟩ | ⟨vm₀, hstart, hvm₀, hslots⟩
  · exact ⟨0, result, init maxCycles trace, by rw [runFull, hstart]⟩
  -- a step that goes on has not reached the limit
  have hstep : ∀ vm vm', (∃ cycles, Running cycles maxCycles vm) → step program vm = .inl vm' →
      (∃ cycles, Running cycles maxCycles vm') ∧ maxCycles - vm'.cycles < maxCycles - vm.cycles := by
    rintro vm vm' ⟨cycles, hvm⟩ hstep
    have hnext := hvm.step hslots
    rw [hstep] at hnext
    have hlimit : ¬(vm.maxCycles > 0 ∧ vm.cycles ≥ vm.maxCycles) := by
      intro hlimit
      rw [step, if_pos hlimit] at hstep
      cases hstep
    rw [hvm.limit_eq, hvm.cycles_eq] at hlimit
    exact ⟨⟨cycles + 1, hnext⟩, by rw [hnext.cycles_eq, hvm.cycles_eq]; omega⟩
  obtain ⟨⟨halt, vm⟩, hrun⟩ := Stepping.exists_run_of_measure (fun vm ↦ maxCycles - vm.cycles)
    (fun vm ↦ ∃ cycles, Running cycles maxCycles vm) hstep ⟨0, hvm₀⟩
  obtain ⟨vm', hreaches, hend⟩ := Stepping.exists_reaches_of_run hrun
  obtain ⟨⟨cycles, hvm'⟩, -⟩ := Reached.running ⟨vm₀, hstart, hreaches⟩
  have hresult := hvm'.step hslots
  rw [hend] at hresult
  obtain ⟨result, rfl⟩ := hresult
  exact ⟨_, result, vm, by rw [runFull, hstart]; exact hrun⟩

/-! ## The heap between instructions -/

/-- The most arrays that the operand stack, the globals and the frames can refer to. -/
def maxRooted : Nat := maxOperandStack + maxGlobalSlots + maxFrames * maxLocalSlots

theorem Sound.card_rooted_le (h : Sound cycles limit vm) : vm.rooted.card ≤ maxRooted := by
  have hframe : ∀ frame ∈ vm.callStack.reverse,
      ((initialisedLocals frame).filterMap refId?).length ≤ maxLocalSlots := by
    intro frame hmem
    have hsize := (h.frames frame (List.mem_reverse.mp hmem)).size
    have hrefs := List.length_filterMap_le refId? (initialisedLocals frame)
    have hinit := List.length_filterMap_le (fun x : GcValue × Bool ↦ if x.2 then some x.1 else none)
      (frame.locals.zip frame.initFlags)
    rw [List.length_zip] at hinit
    exact hrefs.trans (hinit.trans ((Nat.min_le_left _ _).trans hsize))
  have hframes : (vm.callStack.reverse.flatMap fun frame ↦
      (initialisedLocals frame).filterMap refId?).length ≤ maxFrames * maxLocalSlots := by
    rw [List.length_flatMap]
    refine (List.sum_le_card_nsmul _ maxLocalSlots fun n hn ↦ ?_).trans ?_
    · obtain ⟨frame, hmem, rfl⟩ := List.mem_map.mp hn
      exact hframe frame hmem
    · rw [List.length_map, List.length_reverse, smul_eq_mul]
      exact Nat.mul_le_mul_right _ h.frames_le
  have hstack := List.length_filterMap_le refId? vm.stack.reverse
  have hglobals := List.length_filterMap_le refId? vm.globals
  rw [List.length_reverse] at hstack
  refine (List.toFinset_card_le _).trans ?_
  rw [idsToMark, List.length_append, List.length_append, maxRooted]
  have := h.stack_le
  have := h.globals_length
  omega

theorem Sound.collectionPeak_le (h : Sound cycles limit vm) (vm' : GcVm) :
    collectionPeak vm vm' ≤ maxRooted := by
  rw [collectionPeak]
  split
  · exact Nat.zero_le _
  · exact h.card_rooted_le

theorem Sound.initPeak_le {infos : List GlobalInfo} (h : Sound cycles limit vm) :
    initPeak infos vm ≤ maxRooted := by
  induction infos generalizing vm with
  | nil => exact Nat.zero_le _
  | cons info infos ih =>
    rw [initPeak]
    split
    · exact Nat.max_le.mpr
        ⟨h.collectionPeak_le _, ih ((h.allocArray info.arraySize).setGlobalRef _ _)⟩
    · exact ih h

/-- In every state the heap invariant holds with the rooted arrays that the limits leave room
for. -/
theorem Visited.heapInv {maxCycles : Nat} {trace : Option (List TraceEvent)}
    (h : Visited program maxCycles trace vm) : HeapInv maxRooted [] vm := by
  rcases h with ⟨infos, rest, hglobals, hinit⟩ | ⟨vm₀, hstart, hreaches⟩
  · exact (Reachable.init maxCycles trace hglobals hinit).heapInv.mono
      (sound_init maxCycles trace).initPeak_le (List.Subset.refl _)
  have hreachable : ∃ R ≤ maxRooted, Reachable program vm R := by
    induction hreaches with
    | refl => exact ⟨_, (sound_init maxCycles trace).initPeak_le, .start maxCycles trace hstart⟩
    | @tail vm vm' hreaches hstep ih =>
      obtain ⟨R, hR, hvm⟩ := ih
      obtain ⟨⟨cycles, hsound⟩, -⟩ := Reached.running ⟨vm₀, hstart, hreaches⟩
      have hnext := hvm.step
      rw [hstep] at hnext
      exact ⟨_, Nat.max_le.mpr ⟨hR, hsound.collectionPeak_le vm'⟩, hnext⟩
  obtain ⟨R, hR, hvm⟩ := hreachable
  exact hvm.heapInv.mono hR (List.Subset.refl _)

/-- The accesses that no instruction checks stay in range: the difference of the lengths of the heap
and the free list, the slot the free list hands out, the flag of a local, and the id counter, a
`u32`. -/
structure Guarded (vm : GcVm) : Prop where
  free_le : vm.freeArraySlots.length ≤ vm.heapArrays.length
  free_lt : ∀ slot ∈ vm.freeArraySlots, slot < vm.heapArrays.length
  flags : ∀ frame ∈ vm.callStack, frame.initFlags.length = frame.locals.length
  nextArrayId_lt : vm.nextArrayId + 1 < 2 ^ 32

theorem HeapInv.guarded (h : HeapInv maxRooted [] vm) (hvm : Sound cycles limit vm) :
    Guarded vm where
  free_le := by
    have := h.tracked.card_occupied_add
    omega
  free_lt slot hmem := h.tracked.lt_length hmem
  flags frame hmem := (hvm.frames frame hmem).flags
  nextArrayId_lt := by
    have hbound : max MiniLang.gcThreshold (maxRooted + 1) + 1 < 2 ^ 32 := by decide
    have := h.bounded
    rw [h.nextArrayId]
    omega

/-- **Totality.** Whatever the bytecode, a run with a cycle limit ends with a result, never with a
panic, and in every state it gets to, before and after a collection, the unchecked accesses are in
range. -/
theorem total (program : CompiledProgram) {maxCycles : Nat} (hmax : 0 < maxCycles)
    (trace : Option (List TraceEvent)) :
    (∃ fuel result vm, runFull program fuel (init maxCycles trace) = some (.result result, vm)) ∧
    ∀ vm, Visited program maxCycles trace vm → Guarded vm ∧ Guarded vm.collectGarbage := by
  refine ⟨exists_runFull program hmax trace, fun vm hvisited ↦ ?_⟩
  have hsound : ∃ cycles, Sound cycles maxCycles vm := by
    rcases hvisited with ⟨_, _, _, hinit⟩ | hreached
    · exact ⟨0, (sound_init maxCycles trace).initGlobalArrays hinit⟩
    · obtain ⟨⟨cycles, hvm⟩, -⟩ := hreached.running
      exact ⟨cycles, hvm.toSound⟩
  obtain ⟨cycles, hvm⟩ := hsound
  exact ⟨hvisited.heapInv.guarded hvm, hvisited.heapInv.collectGarbage.guarded hvm.collectGarbage⟩

theorem total_churn :
    (∃ fuel result vm, runFull churn fuel (init 10 none) = some (.result result, vm)) ∧
    ∀ vm, Visited churn 10 none vm → Guarded vm ∧ Guarded vm.collectGarbage :=
  total churn (by decide) none

end GcVm

end MiniLang
