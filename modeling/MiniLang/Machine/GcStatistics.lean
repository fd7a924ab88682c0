import MiniLang.Machine.GcTotality

/-!
# The statistics of the garbage-collected machine

Every array that was allocated is live or has been freed. The number of allocations that a run
reports is the next unused id: allocations that found a freed slot are not in it.

## Counting from outside

The machine keeps no count of the calls of `alloc_array`, so the count is made here along the run:
`stepTally` looks at the instruction that a step executes and says whether it calls the allocator
and whether the call finds a freed slot, in the state after the collection that the call may make.
`runTally` adds the tallies of the global arrays and of the steps. Nothing of the machine is changed
for it.

## The invariant

`Conserved` relates a state to the tally so far by two equations: the live arrays and the freed ones
add up to the calls, and the next id and the recycled slots do. A collection moves arrays from the
live to the freed ones; a slot from the free list raises the live ones and the recycled ones, a new
slot raises the live ones and the next id. All other instructions keep `shape`, the part of the
state that these numbers are read from, and nothing else has to be known of them.
-/

namespace MiniLang

namespace GcVm

variable {program : CompiledProgram} {vm vm' : GcVm}

/-- The arrays in the heap. -/
def liveArrays (vm : GcVm) : Nat := vm.heapArrays.countP Option.isSome

/-! ## Counting -/

/-- Calls of `alloc_array`, and those among them that took a freed slot. -/
structure Tally where
  calls : Nat
  recycled : Nat
deriving DecidableEq

def Tally.zero : Tally := ⟨0, 0⟩

def Tally.add (t t' : Tally) : Tally := ⟨t.calls + t'.calls, t.recycled + t'.recycled⟩

/-- The state in which an allocation looks for a slot. -/
def collected (vm : GcVm) : GcVm :=
  if vm.heapArrays.length - vm.freeArraySlots.length ≥ vm.gcThreshold then vm.collectGarbage else vm

/-- An allocation in the state `vm`. -/
def allocation (vm : GcVm) : Tally := ⟨1, if vm.collected.freeArraySlots = [] then 0 else 1⟩

/-- The allocation of an instruction. -/
def instructionTally (instr : Instruction) (vm : GcVm) : Tally :=
  if (instr.opcode = .allocArray ∨ instr.opcode = .arrayNew) ∧ 0 ≤ instr.arg1 then vm.allocation
  else .zero

/-- The allocation of one iteration of the loop in `run`. -/
def stepTally (program : CompiledProgram) (vm : GcVm) : Tally :=
  if vm.maxCycles > 0 ∧ vm.cycles ≥ vm.maxCycles then .zero
  else
    match program.instructions[vm.pc]? with
    | none => .zero
    | some instr => instructionTally instr { vm with cycles := vm.cycles + 1 }

/-- The allocations of at most `fuel` iterations. -/
def loopTally (program : CompiledProgram) : Nat → GcVm → Tally
  | 0, _ => .zero
  | fuel + 1, vm =>
    (stepTally program vm).add
      (match step program vm with
      | .inl vm' => loopTally program fuel vm'
      | .inr _ => .zero)

/-- The allocations of `initGlobalArrays`. -/
def initTally : List GlobalInfo → GcVm → Tally
  | [], _ => .zero
  | info :: infos, vm =>
    if info.isArray then
      let (id, vm') := vm.allocArray info.arraySize
      vm.allocation.add
        (initTally infos { vm' with globals := vm'.globals.set info.slot (.arrayRef id) })
    else initTally infos vm

/-- The allocations of a run. -/
def runTally (program : CompiledProgram) (fuel : Nat) (vm : GcVm) : Tally :=
  match start program vm with
  | .inr _ => .zero
  | .inl vm' => (initTally program.globals.values vm).add (loopTally program fuel vm')

/-! ## What only allocations change -/

/-- The part of the state that the counts are about. -/
def shape (vm : GcVm) : List Bool × List Nat × Nat × Nat :=
  (vm.heapArrays.map Option.isSome, vm.freeArraySlots, vm.nextArrayId, vm.gcObjectsFreed)

/-- `x` neither allocates nor frees. -/
def KeepsShape {α : Type} (x : GcVmM α) : Prop := ∀ v, EStateM.Keeps (fun vm ↦ vm.shape = v) x

namespace KeepsShape

variable {α β : Type} {x : GcVmM α} {f : α → GcVmM β}

theorem bind (hx : KeepsShape x) (hf : ∀ a, KeepsShape (f a)) : KeepsShape (x >>= f) :=
  fun v ↦ (hx v).bind fun a ↦ hf a v

theorem pure (a : α) : KeepsShape (Pure.pure a : GcVmM α) := fun _ ↦ EStateM.Keeps.pure a

theorem trap (code : TrapCode) (message : String) :
    KeepsShape (GcVm.trap code message : GcVmM α) :=
  fun _ ↦ EStateM.Keeps.throw _

theorem panic : KeepsShape (throw .panic : GcVmM α) := fun _ ↦ EStateM.Keeps.throw _

theorem get_bind {f : GcVm → GcVmM β} (h : ∀ vm, KeepsShape (f vm)) : KeepsShape (get >>= f) :=
  fun v ↦ EStateM.Keeps.get_bind fun vm hvm ↦ h vm v vm hvm

theorem update {g : GcVm → GcVm} (h : ∀ vm, (g vm).shape = vm.shape) :
    KeepsShape (modify g : GcVmM PUnit) :=
  fun _ ↦ EStateM.Keeps.update fun vm hvm ↦ (h vm).trans hvm

theorem ite {p : Prop} [Decidable p] {y : GcVmM α} (hx : KeepsShape x) (hy : KeepsShape y) :
    KeepsShape (if p then x else y) :=
  fun v ↦ (hx v).ite (hy v)

theorem pop : KeepsShape pop := by
  refine get_bind fun vm ↦ ?_
  split
  · exact trap _ _
  · exact bind (update fun _ ↦ rfl) fun _ ↦ pure _

theorem popInt : KeepsShape popInt := pop.bind fun _ ↦ pure _

theorem push (value : GcValue) : KeepsShape (push value) :=
  get_bind fun _ ↦ (trap _ _).ite (update fun _ ↦ rfl)

theorem currentFrame : KeepsShape currentFrame := by
  refine get_bind fun vm ↦ ?_
  split
  · exact trap _ _
  · exact pure _

theorem currentLocalSlot (raw : Int32) : KeepsShape (currentLocalSlot raw) :=
  (trap _ _).ite (currentFrame.bind fun _ ↦ (trap _ _).ite (pure _))

theorem globalSlot (raw : Int32) : KeepsShape (globalSlot raw) :=
  (trap _ _).ite (get_bind fun _ ↦ (trap _ _).ite (pure _))

theorem arraySize (raw : Int32) : KeepsShape (arraySize raw) := (trap _ _).ite (pure _)

theorem globalArrayRange (raw rawSize : Int32) : KeepsShape (globalArrayRange raw rawSize) := by
  refine (globalSlot raw).bind fun slot ↦ (arraySize rawSize).bind fun size ↦ ?_
  split
  · exact trap _ _
  · exact get_bind fun _ ↦ (trap _ _).ite (pure _)

theorem arrayIndex (raw : Int) (size : Nat) : KeepsShape (arrayIndex raw size) :=
  (trap _ _).ite (pure _)

theorem readGlobal (slot : Nat) : KeepsShape (readGlobal slot) := by
  refine get_bind fun vm ↦ ?_
  split
  · exact pure _
  · exact panic

theorem writeGlobal (slot : Nat) (value : GcValue) : KeepsShape (writeGlobal slot value) :=
  get_bind fun _ ↦ ite (update fun _ ↦ rfl) panic

theorem setLocal (slot : Nat) (value : GcValue) : KeepsShape (setLocal slot value) := by
  refine get_bind fun vm ↦ ?_
  split
  · exact trap _ _
  · exact update fun _ ↦ rfl

theorem loadElement (id index : Nat) : KeepsShape (loadElement id index) := by
  refine get_bind fun vm ↦ ?_
  split
  · exact trap _ _
  · split
    · exact pure _
    · exact trap _ _

/-- The slot of an array still has one. -/
theorem storeElement (id index : Nat) (value : Int) : KeepsShape (storeElement id index value) := by
  intro v
  refine EStateM.Keeps.get_bind fun vm hvm ↦ ?_
  split
  · exact hvm
  · next array harray =>
    split
    · refine Eq.trans ?_ hvm
      have hslot : vm.heapArrays[id]? = some (some array) := by
        rw [getArray] at harray
        exact Option.join_eq_some_iff.mp harray
      have hmap : (vm.heapArrays.map Option.isSome)[id]? = some true := by
        rw [List.getElem?_map, hslot]
        rfl
      obtain ⟨hlt, hget⟩ := List.getElem?_eq_some_iff.mp hmap
      simp only [shape, List.map_set, Option.isSome_some]
      rw [← hget, List.set_getElem_self]
    · exact hvm

theorem binary (f : Int → Int → Int) : KeepsShape (binary f) :=
  popInt.bind fun _ ↦ popInt.bind fun _ ↦ (push _).bind fun _ ↦ pure _

theorem logical (f : Bool → Bool → Bool) : KeepsShape (logical f) :=
  pop.bind fun _ ↦ pop.bind fun _ ↦ (push _).bind fun _ ↦ pure _

theorem popArgs (count : Nat) (args : List GcValue) : KeepsShape (popArgs count args) := by
  induction count generalizing args with
  | zero => exact pure _
  | succ count ih => exact pop.bind fun arg ↦ ih (arg :: args)

theorem ret : KeepsShape ret := by
  refine pop.bind fun returnValue ↦ get_bind fun vm ↦ ?_
  split
  · exact panic
  · refine bind (update fun _ ↦ rfl) fun _ ↦ ?_
    have hpush : KeepsShape (do GcVm.push returnValue; return false) :=
      (push _).bind fun _ ↦ pure _
    exact ite (bind (update fun _ ↦ rfl) fun _ ↦ hpush) hpush

theorem call (arg1 arg2 : Int32) : KeepsShape (call program arg1 arg2) := by
  refine (trap _ _).ite ((trap _ _).ite ?_)
  dsimp only
  split
  · exact trap _ _
  · refine get_bind fun vm ↦ (trap _ _).ite ((trap _ _).ite ((popArgs _ _).bind fun args ↦ ?_))
    exact bind (update fun _ ↦ rfl) fun _ ↦ pure _

/-- Every instruction but the two that allocate. -/
theorem executeInstruction {opcode : Opcode} (h : opcode ≠ .allocArray ∧ opcode ≠ .arrayNew)
    (arg1 arg2 : Int32) : KeepsShape (executeInstruction program opcode arg1 arg2) := by
  have hpush (value : GcValue) : KeepsShape (do GcVm.push value; return true) :=
    (push value).bind fun _ ↦ pure _
  have hjump (target : Nat) : KeepsShape (do
      modify fun vm : GcVm ↦ { vm with pc := target }
      return false) := bind (update fun _ ↦ rfl) fun _ ↦ pure _
  cases opcode with
  | loadConst => exact hpush _
  | loadLocal =>
    refine (currentLocalSlot arg1).bind fun slot ↦ currentFrame.bind fun frame ↦ ?_
    split
    · exact hpush _
    · exact trap _ _
  | storeLocal =>
    exact (currentLocalSlot arg1).bind fun slot ↦ pop.bind fun value ↦
      (setLocal slot value).bind fun _ ↦ pure _
  | loadGlobal =>
    exact (globalSlot arg1).bind fun slot ↦ (readGlobal slot).bind fun value ↦ hpush value
  | storeGlobal =>
    exact (globalSlot arg1).bind fun slot ↦ pop.bind fun value ↦
      (writeGlobal slot value).bind fun _ ↦ pure _
  | add | sub | mul | eq | ne | lt | gt | le | ge => exact binary _
  | and | or => exact logical _
  | div =>
    exact popInt.bind fun b ↦ popInt.bind fun a ↦ (trap _ _).ite (panic.ite (hpush _))
  | neg => exact popInt.bind fun a ↦ panic.ite (hpush _)
  | not => exact pop.bind fun a ↦ hpush _
  | jump => exact hjump _
  | jumpIfFalse | jumpIfTrue => exact pop.bind fun cond ↦ ite (hjump _) (pure _)
  | call => exact call arg1 arg2
  | «return» => exact ret
  | print => exact popInt.bind fun value ↦ bind (update fun _ ↦ rfl) fun _ ↦ pure _
  | pop => exact pop.bind fun _ ↦ pure _
  | dup =>
    refine get_bind fun vm ↦ ?_
    split
    · exact trap _ _
    · exact hpush _
  | halt => exact bind (update fun _ ↦ rfl) fun _ ↦ pure _
  | arrayLoad =>
    refine (globalArrayRange arg1 arg2).bind fun range ↦ popInt.bind fun raw ↦
      (arrayIndex raw range.2).bind fun index ↦ (readGlobal range.1).bind fun base ↦ ?_
    split
    · exact (loadElement _ index).bind fun value ↦ hpush value
    · exact (readGlobal _).bind fun value ↦ hpush value
  | arrayStore =>
    refine (globalArrayRange arg1 arg2).bind fun range ↦ popInt.bind fun value ↦
      popInt.bind fun raw ↦ (arrayIndex raw range.2).bind fun index ↦
      (readGlobal range.1).bind fun base ↦ ?_
    split
    · exact (storeElement _ index value).bind fun _ ↦ pure _
    · exact (writeGlobal _ _).bind fun _ ↦ pure _
  | localArrayLoad =>
    refine (currentLocalSlot arg1).bind fun slot ↦ (arraySize arg2).bind fun size ↦
      popInt.bind fun raw ↦ (arrayIndex raw size).bind fun index ↦
      currentFrame.bind fun frame ↦ ?_
    split
    · exact (loadElement _ index).bind fun value ↦ hpush value
    · exact hpush _
    · exact trap _ _
  | localArrayStore =>
    refine (currentLocalSlot arg1).bind fun slot ↦ (arraySize arg2).bind fun size ↦
      popInt.bind fun value ↦ popInt.bind fun raw ↦ (arrayIndex raw size).bind fun index ↦
      currentFrame.bind fun frame ↦ ?_
    split
    · exact (storeElement _ index value).bind fun _ ↦ pure _
    · exact trap _ _
  | allocArray => exact absurd rfl h.1
  | arrayNew => exact absurd rfl h.2

end KeepsShape

/-! ## Allocations -/

/-- The arrays and the counters agree with a tally. -/
structure Conserved (t : Tally) (vm : GcVm) : Prop where
  calls : vm.liveArrays + vm.gcObjectsFreed = t.calls
  reported : vm.nextArrayId + t.recycled = t.calls

theorem liveArrays_eq (vm : GcVm) : vm.liveArrays = (vm.heapArrays.map Option.isSome).countP id := by
  rw [List.countP_map]
  rfl

theorem Conserved.of_shape {t : Tally} (h : Conserved t vm) (hshape : vm'.shape = vm.shape) :
    Conserved t vm' := by
  obtain ⟨hheap, -, hid, hfreed⟩ : vm'.heapArrays.map Option.isSome =
      vm.heapArrays.map Option.isSome ∧ vm'.freeArraySlots = vm.freeArraySlots ∧
      vm'.nextArrayId = vm.nextArrayId ∧ vm'.gcObjectsFreed = vm.gcObjectsFreed := by
    simpa only [shape, Prod.mk.injEq] using hshape
  refine ⟨?_, ?_⟩
  · rw [liveArrays_eq, hheap, ← liveArrays_eq, hfreed, h.calls]
  · rw [hid, h.reported]

theorem countP_sweep (i : Nat) (heap : List (Option HeapArray)) :
    (sweep i heap).1.countP Option.isSome + (sweep i heap).2.length =
      heap.countP Option.isSome := by
  induction heap generalizing i with
  | nil => rfl
  | cons slot heap ih =>
    have hrest := ih (i + 1)
    rw [sweep]
    dsimp only
    cases slot with
    | none => simpa using hrest
    | some array =>
      dsimp only
      split
      · simp only [List.countP_cons, Option.isSome_some, if_true]
        omega
      · simp only [List.countP_cons, Option.isSome_some, Option.isSome_none, if_true,
          Bool.false_eq_true, if_false, List.length_cons]
        omega

theorem map_isSome_marked (vm : GcVm) :
    (vm.idsToMark.foldl markId (clearMarks vm.heapArrays)).map Option.isSome =
      vm.heapArrays.map Option.isSome := by
  refine List.ext_getElem? fun i ↦ ?_
  rw [List.getElem?_map, List.getElem?_map, getElem?_marked, Option.map_map]
  refine congrArg (Option.map · _) (funext fun slot ↦ ?_)
  exact Option.isSome_map

variable {R : Nat} {t : Tally}

/-- A collection frees what is no longer live. -/
theorem Conserved.collectGarbage (h : Conserved t vm) : Conserved t vm.collectGarbage := by
  refine ⟨?_, h.reported⟩
  have hsweep := countP_sweep 0 (vm.idsToMark.foldl markId (clearMarks vm.heapArrays))
  have hmarked : (vm.idsToMark.foldl markId (clearMarks vm.heapArrays)).countP Option.isSome =
      vm.liveArrays := by
    have hmap := congrArg (List.countP id) (map_isSome_marked vm)
    rw [List.countP_map, List.countP_map] at hmap
    exact hmap
  rw [hmarked] at hsweep
  have hcalls := h.calls
  rw [liveArrays, GcVm.collectGarbage]
  dsimp only
  omega

theorem Conserved.collected (h : Conserved t vm) : Conserved t vm.collected := by
  rw [GcVm.collected]
  split
  · exact h.collectGarbage
  · exact h

theorem HeapInv.collected (h : HeapInv R [] vm) : HeapInv R [] vm.collected := by
  rw [GcVm.collected]
  split
  · exact h.collectGarbage
  · exact h

/-- A slot is taken: there is one more array, and one more id unless the slot had been freed. -/
theorem Conserved.takeSlot (h : Conserved t vm) (hheap : HeapInv R [] vm) (array : HeapArray) :
    Conserved (t.add ⟨1, if vm.freeArraySlots = [] then 0 else 1⟩) (vm.takeSlot array).2 := by
  have hcalls := h.calls
  have hreported := h.reported
  rw [liveArrays] at hcalls
  rw [GcVm.takeSlot]
  cases hfree : vm.freeArraySlots with
  | cons slot free =>
    have hempty : vm.heapArrays[slot]? = some none :=
      (hheap.tracked.mem_iff slot).mp (hfree ▸ List.mem_cons_self)
    obtain ⟨hlt, hget⟩ := List.getElem?_eq_some_iff.mp hempty
    rw [if_neg (List.cons_ne_nil _ _), Tally.add]
    refine ⟨?_, ?_⟩
    · simp only [liveArrays, List.countP_set hlt, hget, Option.isSome_none, Bool.false_eq_true,
        if_false, Option.isSome_some, if_true]
      omega
    · dsimp only
      omega
  | nil =>
    rw [if_pos rfl, Tally.add]
    refine ⟨?_, ?_⟩
    · simp only [liveArrays, hheap.nextArrayId, lt_irrefl, if_false, List.countP_append,
        List.countP_singleton, Option.isSome_some, if_true]
      omega
    · dsimp only
      omega

theorem Conserved.allocArray (h : Conserved t vm) (hheap : HeapInv R [] vm) (size : Nat) :
    Conserved (t.add vm.allocation) (vm.allocArray size).2 :=
  h.collected.takeSlot hheap.collected (.new size)

theorem Tally.add_zero (t : Tally) : t.add .zero = t := rfl

theorem Tally.add_assoc (t t' t'' : Tally) : (t.add t').add t'' = t.add (t'.add t'') := by
  rw [Tally.add, Tally.add, Tally.add, Tally.add, Nat.add_assoc, Nat.add_assoc]

/-- The two allocating opcodes: the size is checked before, and the stack after the allocation. -/
theorem Conserved.alloc (h : Conserved t vm) (hheap : HeapInv R [] vm) (arg1 : Int32) :
    ((GcVm.alloc arg1).run vm).Post
      (fun _ vm' ↦ Conserved (if 0 ≤ arg1 then t.add vm.allocation else t) vm')
      fun _ vm' ↦ Conserved (if 0 ≤ arg1 then t.add vm.allocation else t) vm' := by
  rw [GcVm.alloc, GcVm.arraySize]
  by_cases hneg : arg1 < 0
  · rw [if_pos hneg, if_neg (Int32.not_le.mpr hneg)]
    exact h
  · rw [if_neg hneg, if_pos (Int32.not_lt.mp hneg)]
    have halloc := h.allocArray hheap (asUsize arg1)
    have hpush : KeepsShape (do
        GcVm.push (.arrayRef (vm.allocArray (asUsize arg1)).1)
        return true) := (KeepsShape.push _).bind fun _ ↦ KeepsShape.pure _
    exact (hpush _ (vm.allocArray (asUsize arg1)).2 rfl).mono
      (fun _ _ hshape ↦ halloc.of_shape hshape) fun _ _ hshape ↦ halloc.of_shape hshape

theorem Conserved.executeInstruction (h : Conserved t vm) (hheap : HeapInv R [] vm)
    (instr : Instruction) :
    ((executeInstruction program instr.opcode instr.arg1 instr.arg2).run vm).Post
      (fun _ vm' ↦ Conserved (t.add (instructionTally instr vm)) vm')
      fun _ vm' ↦ Conserved (t.add (instructionTally instr vm)) vm' := by
  by_cases hop : instr.opcode = .allocArray ∨ instr.opcode = .arrayNew
  · have halloc := h.alloc hheap instr.arg1
    have htally : t.add (instructionTally instr vm) =
        if 0 ≤ instr.arg1 then t.add vm.allocation else t := by
      rw [instructionTally]
      simp only [hop, true_and]
      split <;> rfl
    rw [htally]
    rcases hop with hop | hop
    · rw [hop]
      exact halloc
    · rw [hop]
      exact halloc
  · have hkeeps := @KeepsShape.executeInstruction program _ (not_or.mp hop) instr.arg1
      instr.arg2 _ vm rfl
    rw [instructionTally, if_neg fun hn ↦ hop hn.1, Tally.add_zero]
    exact hkeeps.mono (fun _ _ hshape ↦ h.of_shape hshape) fun _ _ hshape ↦ h.of_shape hshape

/-! ## Runs -/

/-- A result has the counters of the state. -/
def Reports (result : GcVmResult) (vm : GcVm) : Prop :=
  result.heapArraysAllocated = vm.nextArrayId ∧ result.gcObjectsFreed = vm.gcObjectsFreed

theorem shape_afterInstruction (before : GcVm) (instr : Instruction) (vm : GcVm)
    (advance : Bool) :
    (stateAfter (afterInstruction before instr vm advance)).shape = vm.shape ∧
      ∀ result vm', afterInstruction before instr vm advance = .inr (.result result, vm') →
        Reports result vm' := by
  have hpc : (if advance then { vm with pc := vm.pc + 1 } else vm).shape = vm.shape := by
    split <;> rfl
  rw [afterInstruction]
  generalize (if advance then { vm with pc := vm.pc + 1 } else vm) = after at hpc ⊢
  dsimp only
  split
  · refine ⟨hpc, fun result vm' h ↦ ?_⟩
    cases h
    exact ⟨rfl, rfl⟩
  · refine ⟨hpc, fun result vm' h ↦ ?_⟩
    cases h

/-- **The step lemma.** -/
theorem Conserved.step (h : Conserved t vm) (hheap : HeapInv R [] vm) :
    Conserved (t.add (stepTally program vm)) (stateAfter (GcVm.step program vm)) ∧
      ∀ result vm', GcVm.step program vm = .inr (.result result, vm') → Reports result vm' := by
  rw [GcVm.step, stepTally]
  by_cases hlimit : vm.maxCycles > 0 ∧ vm.cycles ≥ vm.maxCycles
  · rw [if_pos hlimit, if_pos hlimit]
    refine ⟨h, fun result vm' heq ↦ ?_⟩
    cases heq
    exact ⟨rfl, rfl⟩
  rw [if_neg hlimit, if_neg hlimit]
  cases program.instructions[vm.pc]? with
  | none =>
    refine ⟨h, fun result vm' heq ↦ ?_⟩
    cases heq
    exact ⟨rfl, rfl⟩
  | some instr =>
    have hcycle : HeapInv R [] { vm with cycles := vm.cycles + 1 } :=
      hheap.of_roots rfl rfl rfl rfl fun _ hid ↦ hid
    have hcounts : Conserved t { vm with cycles := vm.cycles + 1 } := h.of_shape rfl
    have hexec := @Conserved.executeInstruction program _ R t hcounts hcycle instr
    dsimp only
    cases hrun : (GcVm.executeInstruction program instr.opcode instr.arg1 instr.arg2).run
        { vm with cycles := vm.cycles + 1 } with
    | ok advance after =>
      rw [hrun] at hexec
      obtain ⟨hshape, hreports⟩ := shape_afterInstruction vm instr after advance
      exact ⟨Conserved.of_shape hexec hshape, hreports⟩
    | error stop after =>
      rw [hrun] at hexec
      cases stop with
      | trap code message =>
        refine ⟨Conserved.of_shape hexec rfl, fun result vm' heq ↦ ?_⟩
        cases heq
        exact ⟨rfl, rfl⟩
      | panic =>
        refine ⟨hexec, fun result vm' heq ↦ ?_⟩
        cases heq

theorem Conserved.loop (h : Conserved t vm) (hheap : HeapInv R [] vm) {fuel : Nat}
    {result : GcVmResult} (hrun : Stepping.run (GcVm.step program) fuel vm =
      some (.result result, vm')) :
    Conserved (t.add (loopTally program fuel vm)) vm' ∧ Reports result vm' := by
  induction fuel generalizing t vm R with
  | zero => cases hrun
  | succ fuel ih =>
    obtain ⟨hnext, hreports⟩ := @Conserved.step program _ R t h hheap
    have hheap' := @HeapInv.step R vm program hheap
    rw [loopTally, ← Tally.add_assoc]
    cases hstep : GcVm.step program vm with
    | inl next =>
      rw [Stepping.run_of_next hstep] at hrun
      rw [hstep] at hnext hheap'
      exact ih hnext hheap' hrun
    | inr ending =>
      rw [Stepping.run_of_end hstep] at hrun
      cases hrun
      rw [hstep] at hnext
      exact ⟨hnext, hreports result vm' hstep⟩

/-- The invariant of `initGlobalArrays`, for the heap and for the counts. -/
theorem Conserved.initGlobalArrays {infos : List GlobalInfo} (h : Conserved t vm)
    (hheap : HeapInv R [] vm) (hinit : GcVm.initGlobalArrays infos vm = some vm') :
    Conserved (t.add (initTally infos vm)) vm' := by
  induction infos generalizing t vm R with
  | nil =>
    cases hinit
    exact h
  | cons info infos ih =>
    rw [GcVm.initGlobalArrays] at hinit
    rw [initTally]
    split at hinit
    · next harray =>
      dsimp only at hinit
      split at hinit
      · rw [if_pos harray, ← Tally.add_assoc]
        have halloc := hheap.allocArray info.arraySize
        refine ih ((h.allocArray hheap info.arraySize).of_shape rfl)
          (halloc.of_roots rfl rfl rfl rfl fun id hid ↦ ?_) hinit
        rcases hid.resolve_left List.not_mem_nil with hid | hid | hid
        · exact .inr (.inl hid)
        · rcases List.mem_or_eq_of_mem_set hid with hid | heq
          · exact .inr (.inr (.inl hid))
          · exact .inl (heq ▸ List.mem_cons_self)
        · exact .inr (.inr (.inr hid))
      · cases hinit
    · next harray =>
      rw [if_neg harray]
      exact ih h hheap hinit

variable {maxCycles fuel : Nat} {trace : Option (List TraceEvent)} {result : GcVmResult}

/-- **Conservation**: every array that a run allocated is live or has been freed, and what it
reports as allocated lacks those that took a freed slot. -/
theorem conserved_run
    (h : (init maxCycles trace).runFull program fuel = some (.result result, vm)) :
    Conserved (runTally program fuel (init maxCycles trace)) vm ∧ Reports result vm := by
  rw [runFull] at h
  rw [runTally]
  have hempty : Conserved .zero (init maxCycles trace) := ⟨rfl, rfl⟩
  cases hstart : start program (init maxCycles trace) with
  | inr halt =>
    rw [hstart] at h
    cases h
    refine ⟨hempty, ?_⟩
    rw [start] at hstart
    split at hstart
    · cases hstart
      exact ⟨rfl, rfl⟩
    split at hstart
    · cases hstart
      exact ⟨rfl, rfl⟩
    split at hstart <;> cases hstart
  | inl vm₀ =>
    rw [hstart] at h
    have hheap : HeapInv _ [] vm₀ := (Reachable.start maxCycles trace hstart).heapInv
    refine Conserved.loop ?_ hheap h
    rw [start] at hstart
    split at hstart
    · cases hstart
    split at hstart
    · cases hstart
    split at hstart
    · cases hstart
    · next vm₁ hinit =>
      cases hstart
      have hinv := hempty.initGlobalArrays (heapInv_new maxCycles trace) hinit
      have hzero : Tally.zero.add (initTally program.globals.values (init maxCycles trace)) =
          initTally program.globals.values (init maxCycles trace) := by
        rw [Tally.add, Tally.zero, Nat.zero_add, Nat.zero_add]
      rw [hzero] at hinv
      exact hinv.of_shape rfl

/-- **Exactly when the report counts every allocation**: when none of the run found a freed slot. -/
theorem statistics_iff
    (h : (init maxCycles trace).runFull program fuel = some (.result result, vm)) :
    (result.heapArraysAllocated = vm.liveArrays + result.gcObjectsFreed ∧
      result.heapArraysAllocated = (runTally program fuel (init maxCycles trace)).calls) ↔
        (runTally program fuel (init maxCycles trace)).recycled = 0 := by
  obtain ⟨⟨hcalls, hreported⟩, hallocated, hfreed⟩ := conserved_run h
  rw [hallocated, hfreed]
  omega

/-- `main` allocates over and over and keeps all arrays on the stack. -/
def keepsAll : CompiledProgram where
  instructions := [⟨.allocArray, 2, 0⟩, ⟨.jump, 0, 0⟩]
  functions := AList.singleton 0 ⟨"main", 0, 0, 0, 0⟩
  globals := ∅
  mainFuncId := 0
  constants := []

/-- The ninth allocation collects, but frees nothing, and so takes a new slot. -/
theorem statistics_iff_keepsAll : ∃ result vm,
    (init 17 none).runFull keepsAll 18 = some (.result result, vm) ∧
      result.gcCollections = 1 ∧ result.heapArraysAllocated = 9 ∧
      result.heapArraysAllocated = vm.liveArrays + result.gcObjectsFreed ∧
      result.heapArraysAllocated = (runTally keepsAll 18 (init 17 none)).calls := by
  have hrecycled : (runTally keepsAll 18 (init 17 none)).recycled = 0 := by decide +kernel
  have hresult : ((init 17 none).run keepsAll 18).map (fun
      | .result result => (result.gcCollections, result.heapArraysAllocated)
      | .panic => (0, 0)) = some (1, 9) := by decide +kernel
  rw [GcVm.run, Option.map_map] at hresult
  obtain ⟨⟨halt, vm⟩, hrun, hcounts⟩ := Option.map_eq_some_iff.mp hresult
  cases halt with
  | panic => cases hcounts
  | result result =>
    obtain ⟨hcollections, hreported⟩ := Prod.mk.inj hcounts
    exact ⟨result, vm, hrun, hcollections, hreported, (statistics_iff hrun).mpr hrecycled⟩

/-- The result does not count the arrays as they are. -/
def miscounts : GcVmHalt × GcVm → Bool
  | (.result result, vm) =>
    decide (result.heapArraysAllocated ≠ vm.liveArrays + result.gcObjectsFreed)
  | (.panic, _) => false

/-- `churn` collects 12 times in 101 allocations, and takes freed slots: 8 arrays are reported, where
5 are live and 96 freed. -/
theorem not_statistics : ¬∀ (program : CompiledProgram) (maxCycles fuel : Nat)
    (trace : Option (List TraceEvent)) (result : GcVmResult) (vm : GcVm),
    (init maxCycles trace).runFull program fuel = some (.result result, vm) →
      result.heapArraysAllocated = vm.liveArrays + result.gcObjectsFreed := by
  intro h
  have hcheck : ((init 301 none).runFull churn 302).any miscounts = true := by decide +kernel
  obtain ⟨⟨halt, vm⟩, hrun, hmiscounts⟩ := (Option.any_eq_true _ _).mp hcheck
  cases halt with
  | panic => cases hmiscounts
  | result result => exact of_decide_eq_true hmiscounts (h _ _ _ _ _ _ hrun)

end GcVm

end MiniLang
